import OpenuuServer.AccountTickets

/-! Password changes under every interleaving with logins. `login` reads the hash, verifies
it and inserts the session in separate steps, and nothing makes the last step look at
the hash again. A change of the password revokes what was granted on the old hash as
long as no login inserts its session behind the revocation. -/
namespace OpenuuServer.AccountPasswords
open AtomicProgram UniqueTable AccountStore AccountCalls AccountTickets

/- Neither the token nor a ticket minted from it admits any more. -/
def Refused (prim : Primitives) (w : World) (token : String) : Prop :=
  calling prim w.shared (.user token) = .ok (.name none) ∧
  (∀ relayId minted, calling prim w.shared (.ticket token relayId minted) = .ok (.minted none)) ∧
  ∀ relayId minted, .ticket token relayId minted ∈ w.calls →
    ∀ r, calling prim w.shared (.redeem minted.text r) = .ok (.redeemed false)

def replacedHash : Op → Option String
  | .updatePassword _ name => some name
  | _ => none

theorem replacedHashSome {o : Op} {name : String} (h : replacedHash o = some name) :
    ∃ hash, o = .updatePassword hash name := by
  unfold replacedHash at h
  split at h <;> simp_all

/- Task i read the hash of the account before task j replaced it. -/
def ReadBeforeChange (w : World) (i j : Nat) (name : String) : Prop :=
  ∃ sel ∈ w.log, ∃ upd ∈ w.log, sel.task = i ∧ sel.did.1 = .selectHash name ∧
    upd.task = j ∧ replacedHash upd.did.1 = some name ∧ sel.pos < upd.pos

def ChangeRevokes (prim : Primitives) (w : World) : Prop :=
  ∀ i j name old new salt token, w.calls[i]? = some (.login name old token) →
    w.Answered j (.setPassword name new salt) (.ok .done) →
    ReadBeforeChange w i j name → Refused prim w token.text

/- The account for which the task is about to insert a session. -/
def insertedName (w : World) (i : Nat) : Option String :=
  match w.next i with
  | some (.insertSession _ name) => some name
  | _ => none

/- A login overtaken by a password change: the hash it read was replaced, and the sessions of
the account were already deleted when it comes to insert its own. -/
def Overtaken (w : World) (i : Nat) : Prop :=
  ∃ sel ∈ w.log, ∃ upd ∈ w.log, ∃ del ∈ w.log, sel.task = i ∧ upd.task = del.task ∧
    ∃ name ∈ insertedName w i, replacedHash upd.did.1 = some name ∧ sel.did.1 = .selectHash name ∧
      del.did.1 = .deleteSessionsOf name ∧ sel.pos < upd.pos ∧ upd.pos < del.pos

def InTime (w : World) : Act Call Nat → Prop
  | .advance i => ¬ Overtaken w i
  | _ => True

instance (w i j name) : Decidable (ReadBeforeChange w i j name) := by
  unfold ReadBeforeChange; infer_instance
instance (w i) : Decidable (Overtaken w i) := by unfold Overtaken; infer_instance
instance (w : World) : (a : Act Call Nat) → Decidable (InTime w a)
  | .advance i => inferInstanceAs (Decidable (¬ Overtaken w i))
  | .start _ | .env _ => .isTrue trivial

/- What the statements do to the rows of `account_sessions`. -/
theorem sessionRows (prim : Primitives) (o : Op) (s : Store) {row : Session}
    (member : row ∈ (exec prim o s).2.sessions) :
    row ∈ s.sessions ∧ o ≠ .deleteSessionsOf row.name ∨ o = .insertSession row.tokenHash row.name := by
  cases o with
  | insertSession h name =>
    simp only [exec,inserted] at member
    split at member
    · rename_i t added
      rcases (memInsert added).mp member with old | rfl
      · exact .inl ⟨old,by simp⟩
      · exact .inr rfl
    · exact .inl ⟨member,by simp⟩
  | deleteSessionsOf name =>
    obtain ⟨old,kept⟩ := memDelete.mp member
    have other : row.name ≠ name := of_decide_eq_false kept
    exact .inl ⟨old,fun same => other (Op.deleteSessionsOf.inj same).symm⟩
  | purgeSessions => exact .inl ⟨(memDelete.mp member).1,by simp⟩
  | revokeSession h => exact .inl ⟨(memDelete.mp member).1,by simp⟩
  | insertAccount name hash =>
    simp only [exec,inserted] at member
    split at member <;> exact .inl ⟨member,by simp⟩
  | insertTicket h sessionHash relayId =>
    simp only [exec,inserted] at member
    split at member <;> exact .inl ⟨member,by simp⟩
  | _ => exact .inl ⟨member,by simp⟩

section Runs
variable {prim : Primitives} {ok : World → Act Call Nat → Prop} {s : Store} {w : World}

/- A session in the table was inserted after the last deletion of the account's sessions. -/
theorem sessionOrigin (empty : s.sessions = .empty) (reach : (machine prim).Reach ok s w) :
    ∀ row ∈ w.shared.sessions, ∃ e ∈ w.log, e.did.1 = .insertSession row.tokenHash row.name ∧
      ∀ d ∈ w.log, d.did.1 = .deleteSessionsOf row.name → d.pos < e.pos := by
  refine Machine.invariant (I := fun w => ∀ row ∈ w.shared.sessions, ∃ e ∈ w.log,
    e.did.1 = .insertSession row.tokenHash row.name ∧
      ∀ d ∈ w.log, d.did.1 = .deleteSessionsOf row.name → d.pos < e.pos) ?_ ?_ ?_ ?_ reach
  · intro row member
    have none : row ∈ s.sessions := member
    rw [empty] at none
    exact absurd none notMemEmpty
  · intro w c _ _ ih; exact ih
  · intro w i c o next before _ _ _ ih row member
    rcases sessionRows prim o w.shared member with ⟨old,spared⟩ | insert
    · obtain ⟨e,inside,insert,last⟩ := ih row old
      refine ⟨e,Machine.stillThere inside,insert,fun d there delete => ?_⟩
      rcases Machine.memPerformed.mp there with earlier | now
      · exact last d earlier delete
      · subst now
        exact absurd delete spared
    · refine ⟨_,Machine.happened,insert,fun d there delete => ?_⟩
      rcases Machine.memPerformed.mp there with earlier | now
      · exact Machine.olderPosition before earlier
      · subst now
        rw [insert] at delete
        cases delete
  · intro w e _ _ ih; exact ih

end Runs

/- The statements of a successful `set_password`, in order. -/
theorem setPasswordDids {prim : Primitives} {name new salt : String} {dids}
    (path : Path (program prim (.setPassword name new salt)) dids (.ret (.ok .done))) :
    ∃ rows tickets sessions, dids = [⟨.updatePassword (prim.bcryptHash new salt) name,.ok rows⟩,
      ⟨.deleteTicketsOf name,.ok tickets⟩,⟨.deleteSessionsOf name,.ok sessions⟩] := by
  obtain ⟨_,_,whole⟩ := pathAnswer path
  rw [setPasswordTree,revokeUserTree] at whole
  obtain ⟨_,wrong⟩ | ⟨_,first⟩ := pathIte whole
  · cases wrong
  obtain ⟨_,_,done,later⟩ := pathReturned first
  obtain ⟨rows,rfl,next⟩ := pathAfterwards later
  obtain ⟨_,wrong⟩ | ⟨_,second⟩ := pathIte next
  · cases wrong
  obtain ⟨_,_,done',later⟩ := pathReturned second
  obtain ⟨tickets,rfl,third⟩ := pathAfterwards later
  obtain ⟨_,_,done'',later⟩ := pathReturned third
  obtain ⟨sessions,rfl,last⟩ := pathAfterwards later
  obtain ⟨end',_⟩ := pathRet.mp last
  exact ⟨rows,tickets,sessions,by rw [done,done',done'',end']⟩

/- Without a row for its hash a token is refused, and so is a ticket whose row points to it. -/
theorem userNone {prim : Primitives} {s : Store} {token : Minted}
    (gone : ∀ row ∈ s.sessions, row.tokenHash ≠ prim.digest token.text) :
    exec prim (.selectUser (prim.digest token.text)) s = (.ok none,s) := by
  have absent : s.joined.find? (fun pair => pair.1.tokenHash = prim.digest token.text && s.live pair) = none := by
    rw [List.find?_eq_none]
    rintro ⟨row,a⟩ inside hit
    have same := (Bool.and_eq_true_iff.mp hit).1
    exact gone row (memJoined.mp inside).1 (of_decide_eq_true same)
  simp only [exec,absent,Option.map_none]

theorem goneRefused {prim : Primitives} {s : Store} {token : Minted}
    (gone : ∀ row ∈ s.sessions, row.tokenHash ≠ prim.digest token.text) :
    calling prim s (.user token.text) = .ok (.name none) ∧
    ∀ relayId minted, calling prim s (.ticket token.text relayId minted) = .ok (.minted none) := by
  have size : ¬ token.text.utf8ByteSize ≠ 64 := not_not.mpr token.length
  constructor
  · simp only [calling,program,answer,userTree,if_neg size,mapOp,Prog.run,userNone gone,afterwards]
    rfl
  · intro relayId minted
    simp only [calling,program,answer,ticketTree,if_neg size]
    split
    · rfl
    · simp only [mapOp,Prog.run,userNone gone,afterwards,Option.isNone_none,if_pos]
      rfl

theorem goneRedeem {prim : Primitives} {s : Store} {k token : Minted}
    (gone : ∀ row ∈ s.sessions, row.tokenHash ≠ prim.digest token.text)
    (points : ∀ row ∈ s.tickets, row.hash = prim.digest k.text → row.sessionHash = prim.digest token.text)
    (r : String) : calling prim s (.redeem k.text r) = .ok (.redeemed false) := by
  have size : ¬ k.text.utf8ByteSize ≠ 64 := not_not.mpr k.length
  have rows : (exec prim (.redeemTicket (prim.digest k.text) r) s).1 = .ok 0 := by
    refine congrArg Except.ok (affectedZero.mpr fun row inside => decide_eq_false ?_)
    rintro ⟨hash,_,_,live⟩
    rw [points row inside hash] at live
    obtain ⟨session,there,same,_⟩ := memLiveHashes.mp live
    exact gone session there same
  simp only [calling,program,answer,redeemTree,if_neg size,mapOp,Prog.run,rows,afterwards]
  rfl

section Changes
variable {prim : Primitives} {ok : World → Act Call Nat → Prop} {s : Store} {w : World}

theorem changeEvents (reach : (machine prim).Reach ok s w) {j name new salt}
    (changed : w.Answered j (.setPassword name new salt) (.ok .done)) :
    ∃ upd ∈ w.log, ∃ del ∈ w.log, upd.task = j ∧ del.task = j ∧ upd.pos < del.pos ∧
      upd.did.1 = .updatePassword (prim.bcryptHash new salt) name ∧ del.did.1 = .deleteSessionsOf name := by
  obtain ⟨t,found,call,done⟩ := changed
  have path := Machine.taskPath reach found
  rw [call,done] at path
  obtain ⟨rows,tickets,sessions,dids⟩ := setPasswordDids path
  obtain ⟨upd,inside,del,inside',task,task',first,last,less⟩ :=
    Machine.didsInOrder reach (i := j) (j := 0) (k := 2) (by rw [dids]; rfl) (by rw [dids]; rfl) (by decide)
  exact ⟨upd,inside,del,inside',task,task',less,by rw [first],by rw [last]⟩

variable (fresh : ∀ w a, ok w a → Fresh prim w a)
include fresh

/- The row of a granted token was inserted by the login that minted the token. -/
theorem rowOfLogin (empty : s.sessions = .empty) (reach : (machine prim).Reach ok s w)
    {i name old token} (login : w.calls[i]? = some (.login name old token))
    {row} (inside : row ∈ w.shared.sessions) (same : row.tokenHash = prim.digest token.text) :
    ∃ e ∈ w.log, e.task = i ∧ e.did.1 = .insertSession row.tokenHash name ∧ row.name = name ∧
      ∀ d ∈ w.log, d.did.1 = .deleteSessionsOf name → d.pos < e.pos := by
  obtain ⟨e,kept,insert,last⟩ := sessionOrigin empty reach row inside
  have belongs := eventBelongs reach kept
  rw [insert] at belongs
  obtain ⟨password,minted,call,hash⟩ := belongs
  obtain ⟨t,found,called⟩ := Machine.eventTask reach e kept
  have granted := login
  rw [Pool.calls,List.getElem?_map,Option.map_eq_some_iff] at granted
  obtain ⟨u,found',called'⟩ := granted
  rw [call] at called
  have text : minted.text = token.text :=
    noCollision fresh reach t.call (List.mem_of_getElem? (callAt found)) u.call
      (List.mem_of_getElem? (callAt found')) _ (by simp [called,Call.secrets]) _
      (by simp [called',Call.secrets]) (hash.symm.trans same)
  have task := sameMinter fresh reach found found' (x := token.text)
    (by simp [called,Call.minted,text]) (by simp [called',Call.minted])
  rw [task] at found
  cases Option.some.inj (found.symm.trans found')
  obtain ⟨owner,_⟩ := Call.login.inj (called.symm.trans called')
  rw [owner] at insert last
  exact ⟨e,kept,task,insert,owner,last⟩

/- The row of a minted ticket points to the session token it was minted from. -/
theorem rowOfTicket (empty : s.tickets = .empty) (reach : (machine prim).Reach ok s w)
    {token relayId} {minted : Minted} (call : .ticket token relayId minted ∈ w.calls)
    {row} (inside : row ∈ w.shared.tickets) (same : row.hash = prim.digest minted.text) :
    row.sessionHash = prim.digest token := by
  obtain ⟨e,kept,insert,_⟩ := ticketOrigin empty reach row inside
  have belongs := eventBelongs reach kept
  rw [insert] at belongs
  obtain ⟨token',minted',call',hash,session⟩ := belongs
  obtain ⟨t,found,called⟩ := Machine.eventTask reach e kept
  obtain ⟨j,there⟩ := List.getElem?_of_mem call
  rw [Pool.calls,List.getElem?_map,Option.map_eq_some_iff] at there
  obtain ⟨u,found',called'⟩ := there
  rw [call'] at called
  have text : minted'.text = minted.text :=
    noCollision fresh reach t.call (List.mem_of_getElem? (callAt found)) u.call
      (List.mem_of_getElem? (callAt found')) _ (by simp [called,Call.secrets]) _
      (by simp [called',Call.secrets]) (hash.symm.trans same)
  have task := sameMinter fresh reach found found' (x := minted.text)
    (by simp [called,Call.minted,text]) (by simp [called',Call.minted])
  rw [task] at found
  cases Option.some.inj (found.symm.trans found')
  obtain ⟨owner,_⟩ := Call.ticket.inj (called.symm.trans called')
  rw [session,owner]

end Changes

/- As long as no login is overtaken, a password change revokes everything that was granted
on the old hash. -/
theorem passwordChangeRevokes {prim : Primitives} {now : Int} {w : World}
    (reach : (machine prim).Reach (fun w a => Fresh prim w a ∧ InTime w a) (Store.init now) w) :
    ChangeRevokes prim w := by
  intro i j name old new salt token login changed ⟨sel,read,upd,replaced,selTask,selects,updTask,updates,less⟩
  have fresh : ∀ w a, Fresh prim w a ∧ InTime w a → Fresh prim w a := fun _ _ => And.left
  have gone : ∀ row ∈ w.shared.sessions, row.tokenHash ≠ prim.digest token.text := by
    intro row inside same
    obtain ⟨e,kept,rfl,insert,_,last⟩ := rowOfLogin fresh rfl reach login inside same
    obtain ⟨hash,replaces⟩ := replacedHashSome updates
    obtain ⟨upd',replaced',del,deleted,updTask',delTask,order,updates',deletes⟩ := changeEvents reach changed
    have one : upd = upd' := kindOnceEach reach replaced replaced' (updTask.trans updTask'.symm)
      (by rw [replaces,updates']; rfl)
    subst one
    have behind := last del deleted deletes
    -- at its insertion the login was already overtaken
    obtain ⟨v,_,⟨_,inTime⟩,_,history,_,_,next,waiting⟩ := Machine.moment reach kept
    refine inTime ⟨sel,(history sel).mpr ⟨read,by omega⟩,upd,(history upd).mpr ⟨replaced,by omega⟩,
      del,(history del).mpr ⟨deleted,behind⟩,selTask,updTask.trans delTask.symm,name,?_,
      updates,selects,deletes,less,order⟩
    rw [insertedName,nextIs waiting,insert]; rfl
  obtain ⟨user,ticket⟩ := goneRefused gone
  refine ⟨user,ticket,fun relayId minted call r => goneRedeem gone (fun row inside same => ?_) r⟩
  exact rowOfTicket fresh rfl reach call inside same

def grantedToken : Minted := mintedA

/- The login has verified the old hash; the change of the password runs to its end; then
the login inserts its session. -/
def overtakenActs : List (Act Call Nat) := [
  .start (.createUser "tester" "long-test-password" "salt"),.advance 0,
  .start (.login "tester" "long-test-password" grantedToken),.advance 1,.advance 1,
  .start (.setPassword "tester" "another-long-password" "salt"),.advance 2,.advance 2,.advance 2,
  .advance 1,.advance 1]

theorem overtakenLoginAdmitted : ∃ w, (machine plain).Reach (Fresh plain) (Store.init 100) w ∧
    calling plain w.shared (.user grantedToken.text) = .ok (.name (some "tester")) ∧
    ¬ ChangeRevokes plain w := by
  obtain ⟨w,reach,shown⟩ := Machine.reachWith (Fresh plain) (fun w a => decide (Fresh plain w a))
    (fun _ _ => of_decide_eq_true) overtakenActs (m := machine plain) (s := Store.init 100)
    (P := fun w => w.calls[1]? = some (.login "tester" "long-test-password" grantedToken) &&
      w.answer 2 = some (.setPassword "tester" "another-long-password" "salt",some (.ok .done)) &&
      decide (ReadBeforeChange w 1 2 "tester") &&
      calling plain w.shared (.user grantedToken.text) = .ok (.name (some "tester"))) (by decide +kernel)
  simp only [Bool.and_eq_true,decide_eq_true_eq] at shown
  obtain ⟨⟨⟨login,changed⟩,read⟩,admitted⟩ := shown
  refine ⟨w,reach,admitted,fun revokes => ?_⟩
  obtain ⟨refused,_⟩ := revokes 1 2 _ _ _ _ _ login (answered changed) read
  rw [admitted] at refused
  cases refused

/- Here the session is inserted between the replacement of the hash and the revocation. -/
def inTimeActs : List (Act Call Nat) := [
  .start (.createUser "tester" "long-test-password" "salt"),.advance 0,
  .start (.login "tester" "long-test-password" grantedToken),.advance 1,.advance 1,
  .start (.setPassword "tester" "another-long-password" "salt"),.advance 2,.advance 2,
  .advance 1,.advance 1,.advance 2]

theorem testerTokenRevoked : ∃ w,
    (machine plain).Reach (fun w a => Fresh plain w a ∧ InTime w a) (Store.init 100) w ∧
    w.Answered 1 (.login "tester" "long-test-password" grantedToken) (.ok (.minted (some grantedToken.text))) ∧
    w.Answered 2 (.setPassword "tester" "another-long-password" "salt") (.ok .done) ∧
    ReadBeforeChange w 1 2 "tester" ∧ Refused plain w grantedToken.text := by
  obtain ⟨w,reach,shown⟩ := Machine.reachWith (fun w a => Fresh plain w a ∧ InTime w a)
    (fun w a => decide (Fresh plain w a ∧ InTime w a))
    (fun _ _ => of_decide_eq_true) inTimeActs (m := machine plain) (s := Store.init 100)
    (P := fun w => w.calls[1]? = some (.login "tester" "long-test-password" grantedToken) &&
      w.answer 1 = some (.login "tester" "long-test-password" grantedToken,
        some (.ok (.minted (some grantedToken.text)))) &&
      w.answer 2 = some (.setPassword "tester" "another-long-password" "salt",some (.ok .done)) &&
      decide (ReadBeforeChange w 1 2 "tester")) (by decide +kernel)
  simp only [Bool.and_eq_true,decide_eq_true_eq] at shown
  obtain ⟨⟨⟨login,granted⟩,changed⟩,read⟩ := shown
  exact ⟨w,reach,answered granted,answered changed,read,
    passwordChangeRevokes reach 1 2 _ _ _ _ _ login (answered changed) read⟩

end OpenuuServer.AccountPasswords
