import OpenuuServer.AccountWol
import OpenuuServer.AccountChains

/-! Deleting an account while its own calls are under way. `delete_user` clears one table after
another and the account last; `login`, `poll` and `wake` look at the account first and write
their row later. Rows know their account by its name only. -/
namespace OpenuuServer.AccountDeletion
open AtomicProgram UniqueTable AccountWol
open AccountStore hiding Op Resp exec

/- A row by its key, of the table that holds it. -/
inductive Key where
  | account (name : String)
  | session (name : String) (tokenHash : Bytes)
  | device (owner id : String)
  | job (owner target : String)
  deriving DecidableEq

def Key.name : Key → String
  | .account name | .session name _ => name
  | .device owner _ | .job owner _ => owner

def Has (s : Store) : Key → Prop
  | .account name => ∃ a ∈ s.accounts, a.name = name
  | .session name h => ∃ row ∈ s.sessions, row.name = name ∧ row.tokenHash = h
  | .device owner id => ∃ d ∈ s.devices, d.owner = owner ∧ d.id = id
  | .job owner target => ∃ j ∈ s.jobs, j.owner = owner ∧ j.target = target

/- The row that a statement writes if it succeeds. -/
def writes : Op → Option Key
  | .account (.insertAccount name _) => some (.account name)
  | .account (.insertSession h name) => some (.session name h)
  | .upsertDevice owner id _ _ => some (.device owner id)
  | .upsertJob owner target _ => some (.job owner target)
  | _ => none

def succeeded : (o : Op) → Resp o → Bool
  | .account (.insertAccount _ _),r | .account (.insertSession _ _),r => decide (r = .ok ())
  | .upsertJob _ _ _,r => decide (r ≠ .ok 0)
  | _,_ => true

def put (d : Did Op Resp) : Option Key := if succeeded d.1 d.2 then writes d.1 else none

/- The statement of `delete_user` for the table of the row. -/
def Key.clearing : Key → Op
  | .account name => .account (.deleteAccount name)
  | .session name _ => .account (.deleteSessionsOf name)
  | .device owner _ => .account (.deleteDevicesOf owner)
  | .job owner _ => .account (.deleteJobsOf owner)

/- The account whose name or session a call has just found in its table. -/
def found : Did Op Resp → Option String
  | ⟨.account (.selectHash name),.ok (some _)⟩ => some name
  | ⟨.account (.selectUser _),.ok (some name)⟩ => some name
  | _ => none

/- `No such account` -/
def missed : Did Op Resp → Bool
  | ⟨.account (.deleteAccount _),.ok 0⟩ => true
  | _ => false

def Deleted (w : World) (j : Nat) (name : String) : Prop :=
  w.Answered j (.account (.deleteUser name)) (.account (.ok .done))

/- `create_user` has made the account again, behind the last statement of task j. -/
def Recreated (w : World) (j : Nat) (name : String) : Prop :=
  ∃ g ∈ w.log, ∃ a ∈ w.log, g.task = j ∧ g.did.1 = .account (.deleteAccount name) ∧
    put a.did = some (.account name) ∧ g.pos < a.pos

/- Task i has found the account after task j deleted it. -/
def FoundSince (w : World) (i j : Nat) (name : String) : Prop :=
  ∃ g ∈ w.log, ∃ c ∈ w.log, g.task = j ∧ g.did.1 = .account (.deleteAccount name) ∧
    c.task = i ∧ found c.did = some name ∧ g.pos < c.pos

/- The row as it stands is the work of task i. -/
def Author (w : World) (k : Key) (i : Nat) : Prop :=
  ∃ e ∈ w.log, e.task = i ∧ put e.did = some k ∧ ∀ e' ∈ w.log, put e'.did = some k → e'.pos ≤ e.pos

/- The account accepts the token, lists the device or runs the wake job. -/
def Serves (prim : Primitives) (s : Store) : Key → Prop
  | .account _ => False
  | .session name h => (exec prim (.account (.selectUser h)) s).1 = .ok (some name)
  | .device owner id => ∃ seen, (exec prim (.selectSeen owner id) s).1 = .ok (some seen)
  | .job owner target => ∃ helper jobs expires, (exec prim (.takeJobs owner helper) s).1 = .ok jobs ∧ (target,expires) ∈ jobs

structure NothingLeft (prim : Primitives) (w : World) : Prop where
  gone : ∀ j name, Deleted w j name → ¬ Recreated w j name →
    ∀ k, k ≠ .account name → k.name = name → ¬ Has w.shared k
  renewed : ∀ j name, Deleted w j name → ∀ k, k.name = name → Serves prim w.shared k →
    ∃ i, Author w k i ∧ FoundSince w i j name

/- A statement about to write a row whose table a `delete_user` has cleared already, on behalf of
a call that has not found the account since. -/
def Late (w : World) (i : Nat) : Prop :=
  ∃ k ∈ (w.next i).bind writes, ∃ d ∈ w.log, d.did.1 = k.clearing ∧ d.call = .account (.deleteUser k.name) ∧
    (¬ ∃ g ∈ w.log, g.task = d.task ∧ missed g.did = true) ∧ k ≠ .account k.name ∧ ¬ FoundSince w i d.task k.name

def InTime (w : World) : Act Call Nat → Prop
  | .advance i => ¬ Late w i
  | _ => True

instance (w i j name) : Decidable (FoundSince w i j name) := by unfold FoundSince; infer_instance
instance (w j name) : Decidable (Recreated w j name) := by unfold Recreated; infer_instance
instance (w i) : Decidable (Late w i) := by unfold Late; infer_instance
instance (w : World) : (a : Act Call Nat) → Decidable (InTime w a)
  | .advance i => inferInstanceAs (Decidable (¬ Late w i))
  | .start _ | .env _ => .isTrue trivial

section Rows
variable {prim : Primitives} {s : Store} {k : Key}

def Key.relation : Key → AccountChains.Relation
  | .account _ => .accounts
  | .session _ _ => .sessions
  | .device _ _ => .devices
  | .job _ _ => .jobs

theorem hasUnwritten {o : AccountStore.Op} (has : Has (AccountStore.exec prim o s).2 k)
    (other : AccountChains.written o ≠ some k.relation) : Has s k := by
  have same : AccountChains.Same (AccountStore.exec prim o s).2 s k.relation := AccountChains.otherSame other
  cases k with
  | account name => obtain ⟨a,member,rest⟩ := has; exact ⟨a,same ▸ member,rest⟩
  | session name h => obtain ⟨row,member,rest⟩ := has; exact ⟨row,same ▸ member,rest⟩
  | device owner id => obtain ⟨d,member,rest⟩ := has; exact ⟨d,same ▸ member,rest⟩
  | job owner target => obtain ⟨j,member,rest⟩ := has; exact ⟨j,same ▸ member,rest⟩

/- A row of the account store after a statement: it was there and the statement is not the one
that clears it, or it was put there. -/
theorem storeRow (o : AccountStore.Op) (has : Has (AccountStore.exec prim o s).2 k) :
    Has s k ∧ .account o ≠ k.clearing ∨ put ⟨.account o,(AccountStore.exec prim o s).1⟩ = some k := by
  cases k with
  | account name =>
    cases o with
    | insertAccount owner hash =>
      simp only [AccountStore.exec,inserted] at has ⊢
      split at has
      · rename_i t added
        obtain ⟨a,member,rfl⟩ := has
        rcases (memInsert added).mp member with old | rfl
        · exact .inl ⟨⟨a,old,rfl⟩,by simp [Key.clearing]⟩
        · exact .inr rfl
      · exact .inl ⟨has,by simp [Key.clearing]⟩
    | updatePassword hash owner =>
      simp only [AccountStore.exec,Has,memAmend] at has
      obtain ⟨a,⟨b,old,same⟩,rfl⟩ := has
      refine .inl ⟨⟨b,old,?_⟩,by simp [Key.clearing]⟩
      rw [← same]; split <;> rfl
    | updateEnabled enabled owner =>
      simp only [AccountStore.exec,Has,memAmend] at has
      obtain ⟨a,⟨b,old,same⟩,rfl⟩ := has
      refine .inl ⟨⟨b,old,?_⟩,by simp [Key.clearing]⟩
      rw [← same]; split <;> rfl
    | deleteAccount owner =>
      obtain ⟨a,member,rfl⟩ := has
      obtain ⟨old,kept⟩ := memDelete.mp member
      have other : a.name ≠ owner := of_decide_eq_false kept
      exact .inl ⟨⟨a,old,rfl⟩,by simpa [Key.clearing] using other.symm⟩
    | _ => exact .inl ⟨hasUnwritten has (by simp [AccountChains.written,Key.relation]),by simp [Key.clearing]⟩
  | session name h =>
    cases o with
    | insertSession hash owner =>
      simp only [AccountStore.exec,inserted] at has ⊢
      split at has
      · rename_i t added
        obtain ⟨row,member,rfl,rfl⟩ := has
        rcases (memInsert added).mp member with old | rfl
        · exact .inl ⟨⟨row,old,rfl,rfl⟩,by simp [Key.clearing]⟩
        · exact .inr rfl
      · exact .inl ⟨has,by simp [Key.clearing]⟩
    | deleteSessionsOf owner =>
      obtain ⟨row,member,rfl,rfl⟩ := has
      obtain ⟨old,kept⟩ := memDelete.mp member
      have other : row.name ≠ owner := of_decide_eq_false kept
      exact .inl ⟨⟨row,old,rfl,rfl⟩,by simpa [Key.clearing] using other.symm⟩
    | purgeSessions =>
      obtain ⟨row,member,same⟩ := has
      exact .inl ⟨⟨row,(memDelete.mp member).1,same⟩,by simp [Key.clearing]⟩
    | revokeSession hash =>
      obtain ⟨row,member,same⟩ := has
      exact .inl ⟨⟨row,(memDelete.mp member).1,same⟩,by simp [Key.clearing]⟩
    | _ => exact .inl ⟨hasUnwritten has (by simp [AccountChains.written,Key.relation]),by simp [Key.clearing]⟩
  | device owner id =>
    cases o with
    | deleteDevicesOf name =>
      obtain ⟨d,member,rfl,rfl⟩ := has
      obtain ⟨old,kept⟩ := memDelete.mp member
      have other : d.owner ≠ name := of_decide_eq_false kept
      exact .inl ⟨⟨d,old,rfl,rfl⟩,by simpa [Key.clearing] using other.symm⟩
    | _ => exact .inl ⟨hasUnwritten has (by simp [AccountChains.written,Key.relation]),by simp [Key.clearing]⟩
  | job owner target =>
    cases o with
    | deleteJobsOf name =>
      obtain ⟨j,member,rfl,rfl⟩ := has
      obtain ⟨old,kept⟩ := memDelete.mp member
      have other : j.owner ≠ name := of_decide_eq_false kept
      exact .inl ⟨⟨j,old,rfl,rfl⟩,by simpa [Key.clearing] using other.symm⟩
    | _ => exact .inl ⟨hasUnwritten has (by simp [AccountChains.written,Key.relation]),by simp [Key.clearing]⟩

theorem rowAfter (o : Op) (has : Has (exec prim o s).2 k) :
    Has s k ∧ o ≠ k.clearing ∨ put ⟨o,(exec prim o s).1⟩ = some k := by
  cases o with
  | account o => exact storeRow o has
  | upsertDevice owner id session peers =>
    cases k with
    | device owner' id' =>
      obtain ⟨d,member,rfl,rfl⟩ := has
      rcases memUpsert.mp member with ⟨old,_⟩ | rfl
      · exact .inl ⟨⟨d,old,rfl,rfl⟩,by simp [Key.clearing]⟩
      · exact .inr rfl
    | _ => exact .inl ⟨has,by simp [Key.clearing]⟩
  | takeJobs owner helper =>
    cases k with
    | job owner' target =>
      obtain ⟨j,member,same⟩ := has
      exact .inl ⟨⟨j,(memDelete.mp member).1,same⟩,by simp [Key.clearing]⟩
    | _ => exact .inl ⟨has,by simp [Key.clearing]⟩
  | upsertJob owner target helper =>
    by_cases queued : ∃ j ∈ s.jobs.rows, j.owner = owner ∧ j.target = target ∧ s.now ≤ j.expires
    · simp only [exec,if_pos queued] at has
      exact .inl ⟨has,by cases k <;> simp [Key.clearing]⟩
    · simp only [exec,if_neg queued] at has ⊢
      cases k with
      | job owner' target' =>
        obtain ⟨j,member,rfl,rfl⟩ := has
        rcases memUpsert.mp member with ⟨old,_⟩ | rfl
        · exact .inl ⟨⟨j,old,rfl,rfl⟩,by simp [Key.clearing]⟩
        · exact .inr rfl
      | _ => exact .inl ⟨has,by simp [Key.clearing]⟩
  | _ => exact .inl ⟨has,by cases k <;> simp [Key.clearing]⟩

/- What a call finds is there, -/
theorem foundAccount {d : Did Op Resp} {name : String} (answer : d.2 = (exec prim d.1 s).1)
    (hit : found d = some name) : Has s (.account name) := by
  unfold found at hit
  split at hit
  · cases Option.some.inj hit
    obtain ⟨a,chosen,_⟩ := Option.map_eq_some_iff.mp (Except.ok.inj answer).symm
    have named := List.find?_some chosen
    simp only [Bool.and_eq_true,decide_eq_true_eq] at named
    exact ⟨a,List.mem_of_find?_eq_some chosen,named.1⟩
  · cases Option.some.inj hit
    obtain ⟨⟨row,a⟩,chosen,rfl⟩ := Option.map_eq_some_iff.mp (Except.ok.inj answer).symm
    exact ⟨a,(memJoined.mp (List.mem_of_find?_eq_some chosen)).2.1,rfl⟩
  · contradiction

/- and so is what serves. -/
theorem servesHas (serves : Serves prim s k) : Has s k := by
  cases k with
  | account name => exact serves.elim
  | session name h =>
    obtain ⟨⟨row,a⟩,chosen,rfl⟩ := Option.map_eq_some_iff.mp (Except.ok.inj serves)
    obtain ⟨inside,_,same⟩ := memJoined.mp (List.mem_of_find?_eq_some chosen)
    have hit := List.find?_some chosen
    exact ⟨row,inside,same.symm,of_decide_eq_true (Bool.and_eq_true_iff.mp hit).1⟩
  | device owner id =>
    obtain ⟨seen,answer⟩ := serves
    obtain ⟨d,chosen,_⟩ := Option.map_eq_some_iff.mp (Except.ok.inj answer)
    have key := List.find?_some chosen
    exact ⟨d,List.mem_of_find?_eq_some chosen,of_decide_eq_true key⟩
  | job owner target =>
    obtain ⟨helper,jobs,expires,answer,member⟩ := serves
    rw [← Except.ok.inj answer] at member
    simp only [List.mem_map,List.mem_filter,decide_eq_true_eq,Prod.mk.injEq] at member
    obtain ⟨j,⟨inside,same,_⟩,target',_⟩ := member
    exact ⟨j,inside,same,target'⟩

end Rows

/- A part of a program over the account store did what it does there. -/
theorem pathEmbedded {α : Type} {p : Prog AccountStore.Op AccountStore.Resp α} {dids value}
    (path : Path (embedded p) dids (.ret value)) :
    ∃ dids', dids = dids'.map (fun d => ⟨.account d.1,d.2⟩) ∧ Path p dids' (.ret value) := by
  induction p generalizing dids with
  | ret value' =>
    obtain ⟨rfl,same⟩ := pathRet.mp path
    cases same
    exact ⟨[],rfl,.here _⟩
  | op o next ih =>
    obtain ⟨r,rest,rfl,later⟩ := pathReturned path
    obtain ⟨dids',rfl,whole⟩ := ih r later
    exact ⟨⟨o,r⟩ :: dids',rfl,.next whole⟩

/- The statements of a `delete_user` that has found its account. -/
theorem deleteUserDids {prim : Primitives} {name : String} {dids}
    (path : Path (program prim (.account (.deleteUser name))) dids (.ret (.account (.ok .done)))) :
    ∃ tickets sessions jobs devices rows, rows ≠ 0 ∧ dids = [⟨.account (.deleteTicketsOf name),.ok tickets⟩,
      ⟨.account (.deleteSessionsOf name),.ok sessions⟩,⟨.account (.deleteJobsOf name),.ok jobs⟩,
      ⟨.account (.deleteDevicesOf name),.ok devices⟩,⟨.account (.deleteAccount name),.ok rows⟩] := by
  obtain ⟨answer,same,part⟩ := pathMapRet path
  cases same
  obtain ⟨dids',rfl,call⟩ := pathEmbedded part
  obtain ⟨_,_,whole⟩ := AccountCalls.pathAnswer call
  rw [deleteUserTree] at whole
  obtain ⟨_,_,rfl,afterTickets⟩ := pathReturned whole
  obtain ⟨tickets,rfl,second⟩ := AccountCalls.pathAfterwards afterTickets
  obtain ⟨_,_,rfl,afterSessions⟩ := pathReturned second
  obtain ⟨sessions,rfl,third⟩ := AccountCalls.pathAfterwards afterSessions
  obtain ⟨_,_,rfl,afterJobs⟩ := pathReturned third
  obtain ⟨jobs,rfl,fourth⟩ := AccountCalls.pathAfterwards afterJobs
  obtain ⟨_,_,rfl,afterDevices⟩ := pathReturned fourth
  obtain ⟨devices,rfl,fifth⟩ := AccountCalls.pathAfterwards afterDevices
  obtain ⟨_,_,rfl,afterAccount⟩ := pathReturned fifth
  obtain ⟨rows,rfl,last⟩ := AccountCalls.pathAfterwards afterAccount
  obtain ⟨_,wrong⟩ | ⟨some,done⟩ := pathIte last
  · cases wrong
  obtain ⟨rfl,_⟩ := pathRet.mp done
  exact ⟨tickets,sessions,jobs,devices,rows,some,rfl⟩

section Runs
variable {prim : Primitives} {ok : World → Act Call Nat → Prop} {s : Store} {w : World}

/- A row stands as the last statement left it that wrote it, and behind every statement that
cleared its table. -/
theorem rowOrigin (none : ∀ k, ¬ Has s k) (reach : (machine prim).Reach ok s w) :
    ∀ k, Has w.shared k → ∃ e ∈ w.log, put e.did = some k ∧ (∀ e' ∈ w.log, put e'.did = some k → e'.pos ≤ e.pos) ∧
      ∀ d ∈ w.log, d.did.1 = k.clearing → d.pos < e.pos := by
  refine Machine.invariant (I := fun w => ∀ k, Has w.shared k → ∃ e ∈ w.log, put e.did = some k ∧
    (∀ e' ∈ w.log, put e'.did = some k → e'.pos ≤ e.pos) ∧
      ∀ d ∈ w.log, d.did.1 = k.clearing → d.pos < e.pos) ?_ ?_ ?_ ?_ reach
  · intro k has
    exact absurd has (none k)
  · intro w c _ _ ih; exact ih
  · intro w i c o next before _ _ _ ih k has
    by_cases here : put ⟨o,(exec prim o w.shared).1⟩ = some k
    · refine ⟨_,Machine.happened,here,fun e' there _ => ?_,fun d there clears => ?_⟩
      · rcases Machine.memPerformed.mp there with earlier | now
        · exact Nat.le_of_lt (Machine.olderPosition before earlier)
        · exact Nat.le_of_eq (congrArg Event.pos now)
      · rcases Machine.memPerformed.mp there with earlier | now
        · exact Machine.olderPosition before earlier
        · subst now
          have wrong : put ⟨o,(exec prim o w.shared).1⟩ = .none := by
            have clears : o = k.clearing := clears
            subst clears
            cases k <;> rfl
          rw [wrong] at here
          cases here
    · obtain ⟨old,spared⟩ := (rowAfter o has).resolve_right here
      obtain ⟨e,inside,puts,last,behind⟩ := ih k old
      refine ⟨e,Machine.stillThere inside,puts,fun e' there again => ?_,fun d there clears => ?_⟩
      · rcases Machine.memPerformed.mp there with earlier | now
        · exact last e' earlier again
        · subst now
          exact absurd again here
      · rcases Machine.memPerformed.mp there with earlier | now
        · exact behind d earlier clears
        · subst now
          exact absurd clears spared
  · intro w e _ _ ih k has
    exact ih k (by cases k <;> exact has)

/- A `delete_user` that returned `Ok` cleared each table and then found its account. -/
theorem deletedEvents (reach : (machine prim).Reach ok s w) {j name} (deleted : Deleted w j name) :
    (∀ k : Key, k.name = name → ∃ d ∈ w.log, d.task = j ∧ d.did.1 = k.clearing ∧
      d.call = .account (.deleteUser name)) ∧
    ∀ g ∈ w.log, g.task = j → missed g.did = false := by
  obtain ⟨t,found,call,done⟩ := deleted
  have path := Machine.taskPath reach found
  rw [call,done] at path
  obtain ⟨tickets,sessions,jobs,devices,rows,some,dids⟩ := deleteUserDids path
  constructor
  · intro k named
    have there : ∃ r, ⟨k.clearing,r⟩ ∈ w.didsOf j := by
      subst named
      rw [dids]
      cases k with
      | account name => exact ⟨.ok rows,by simp [Key.clearing,Key.name]⟩
      | session name h => exact ⟨.ok sessions,by simp [Key.clearing,Key.name]⟩
      | device owner id => exact ⟨.ok devices,by simp [Key.clearing,Key.name]⟩
      | job owner target => exact ⟨.ok jobs,by simp [Key.clearing,Key.name]⟩
    obtain ⟨r,member⟩ := there
    obtain ⟨d,inside,task,did⟩ := didsOfMember.mp member
    obtain ⟨t',found',call'⟩ := Machine.eventTask reach d inside
    rw [task,found] at found'
    cases Option.some.inj found'
    exact ⟨d,inside,task,by rw [did],by rw [← call',call]⟩
  · intro g inside task
    have member : g.did ∈ w.didsOf j := didsOfMember.mpr ⟨g,inside,task,rfl⟩
    rw [dids] at member
    simp only [List.mem_cons,List.not_mem_nil,or_false] at member
    obtain same | same | same | same | same := member <;> rw [same] <;> try rfl
    cases rows with
    | zero => exact absurd rfl some
    | succ n => rfl

end Runs

/- As long as no statement is late, nothing of a deleted account is left. -/
theorem nothingLeft {prim : Primitives} {now : Int} {w : World}
    (reach : (machine prim).Reach InTime (Store.init now) w) : NothingLeft prim w := by
  have none : ∀ k, ¬ Has (Store.init now) k := by
    intro k has
    cases k <;> obtain ⟨_,member,_⟩ := has <;> exact notMemEmpty member
  -- whoever wrote a row that a deletion has passed had found the account again
  have since : ∀ j name, Deleted w j name → ∀ k, k ≠ .account name → k.name = name → Has w.shared k →
      ∃ i, Author w k i ∧ FoundSince w i j name := by
    rintro j _ deleted k row rfl has
    obtain ⟨e,inside,puts,last,behind⟩ := rowOrigin none reach k has
    obtain ⟨cleared,hit⟩ := deletedEvents reach deleted
    obtain ⟨d,there,rfl,clears,call⟩ := cleared k rfl
    obtain ⟨v,_,inTime,_,history,_,_,next,waiting⟩ := Machine.moment reach inside
    have aims : k ∈ (v.next e.task).bind writes := by
      rw [nextIs waiting]
      unfold put at puts
      split at puts
      · exact puts
      · contradiction
    have again : FoundSince v e.task d.task k.name := by
      by_contra never
      refine inTime ⟨k,aims,d,(history d).mpr ⟨there,behind d there clears⟩,clears,call,?_,row,never⟩
      rintro ⟨g,known,task,miss⟩
      rw [hit g ((history g).mp known).1 task] at miss
      cases miss
    obtain ⟨g,known,c,known',rest⟩ := again
    exact ⟨e.task,⟨e,inside,rfl,puts,last⟩,g,((history g).mp known).1,c,((history c).mp known').1,rest⟩
  constructor
  · intro j name deleted never k row named has
    obtain ⟨i,_,g,inside,c,there,task,deletes,_,hit,less⟩ := since j name deleted k row named has
    -- what found the account met one made behind the deletion
    obtain ⟨v,reached,_,same,history,answer,_,_,_⟩ := Machine.moment reach there
    have account : Has v.shared (.account name) := by
      rw [same]
      exact foundAccount answer hit
    obtain ⟨a,made,puts,_,behind⟩ := rowOrigin none reached _ account
    refine never ⟨g,inside,a,((history a).mp made).1,task,deletes,puts,?_⟩
    exact behind g ((history g).mpr ⟨inside,less⟩) deletes
  · intro j name deleted k named serves
    refine since j name deleted k ?_ named (servesHas serves)
    rintro rfl
    exact serves

def earlyToken : Minted := AccountCalls.mintedA

def create (password : String) : Call := .account (.createUser "tester" password "salt")
def signIn : Call := .account (.login "tester" "long-test-password" earlyToken)
def delete : Call := .account (.deleteUser "tester")

/- The login has verified its password; the deletion runs to its end; then the login inserts
its session. An account made anew under the same name accepts its token. -/
def lateActs : List (Act Call Nat) := [
  .start (create "long-test-password"),.advance 0,.start signIn,.advance 1,.advance 1,
  .start delete,.advance 2,.advance 2,.advance 2,.advance 2,.advance 2,.advance 1,.advance 1]

def earlyKey : Key := .session "tester" (AccountCalls.plain.digest earlyToken.text)

theorem tokenOutlivesAccount :
    (∃ w, (machine AccountCalls.plain).Reach (fun _ _ => True) (Store.init 100) w ∧ Deleted w 2 "tester" ∧
      ¬ Recreated w 2 "tester" ∧ Has w.shared earlyKey ∧ ¬ NothingLeft AccountCalls.plain w) ∧
    ∃ w, (machine AccountCalls.plain).Reach (fun _ _ => True) (Store.init 100) w ∧ Deleted w 2 "tester" ∧
      w.Answered 3 (create "another-long-password") (.account (.ok .done)) ∧
      w.Answered 4 (.account (.user earlyToken.text)) (.account (.ok (.name (some "tester")))) ∧
      ¬ NothingLeft AccountCalls.plain w := by
  constructor
  · obtain ⟨w,reach,shown⟩ := Machine.reachWith (fun _ _ => True) (fun _ _ => true) (fun _ _ _ => trivial)
      lateActs (m := machine AccountCalls.plain) (s := Store.init 100)
      (P := fun w => w.answer 2 = some (delete,some (.account (.ok .done))) && decide (¬ Recreated w 2 "tester") &&
        decide (∃ row ∈ w.shared.sessions.rows, row.name = "tester" ∧
          row.tokenHash = AccountCalls.plain.digest earlyToken.text)) (by decide +kernel)
    simp only [Bool.and_eq_true,decide_eq_true_eq] at shown
    obtain ⟨⟨deleted,once⟩,has⟩ := shown
    exact ⟨w,reach,answered deleted,once,has,fun nothing =>
      nothing.gone 2 "tester" (answered deleted) once earlyKey (by simp [earlyKey]) rfl has⟩
  · obtain ⟨w,reach,shown⟩ := Machine.reachWith (fun _ _ => True) (fun _ _ => true) (fun _ _ _ => trivial)
      (lateActs ++ [.start (create "another-long-password"),.advance 3,
        .start (.account (.user earlyToken.text)),.advance 4])
      (m := machine AccountCalls.plain) (s := Store.init 100)
      (P := fun w => w.answer 2 = some (delete,some (.account (.ok .done))) &&
        w.answer 3 = some (create "another-long-password",some (.account (.ok .done))) &&
        w.answer 4 = some (.account (.user earlyToken.text),some (.account (.ok (.name (some "tester"))))) &&
        decide ((exec AccountCalls.plain (.account (.selectUser (AccountCalls.plain.digest earlyToken.text))) w.shared).1 =
          .ok (some "tester")) &&
        decide (∀ e ∈ w.log, put e.did = some earlyKey → e.task = 1) &&
        decide (¬ FoundSince w 1 2 "tester")) (by decide +kernel)
    simp only [Bool.and_eq_true,decide_eq_true_eq] at shown
    obtain ⟨⟨⟨⟨⟨deleted,created⟩,admitted⟩,serves⟩,author⟩,early⟩ := shown
    refine ⟨w,reach,answered deleted,answered created,answered admitted,fun nothing => ?_⟩
    obtain ⟨i,⟨e,inside,rfl,puts,_⟩,since⟩ := nothing.renewed 2 "tester" (answered deleted) earlyKey rfl serves
    rw [author e inside puts] at since
    exact early since

def lateToken : Minted := AccountCalls.mintedB

def signInAgain : Call := .account (.login "tester" "another-long-password" lateToken)

/- A device registers before the deletion comes to its table; then the account is made anew
and signed in to. -/
def timelyActs : List (Act Call Nat) := [
  .start (create "long-test-password"),.advance 0,.start signIn,.advance 1,.advance 1,.advance 1,.advance 1,
  .start (.poll earlyToken.text "helper" ["target"]),.advance 2,.start delete,.advance 3,.advance 3,.advance 2,
  .advance 3,.advance 3,.advance 3,.start (create "another-long-password"),.advance 4,
  .start signInAgain,.advance 5,.advance 5,.advance 5,.advance 5]

theorem madeAnewWithoutRemains : ∃ w, (machine AccountCalls.plain).Reach InTime (Store.init 100) w ∧
    Deleted w 3 "tester" ∧ w.Answered 5 signInAgain (.account (.ok (.minted (some lateToken.text)))) ∧
    NothingLeft AccountCalls.plain w := by
  obtain ⟨w,reach,shown⟩ := Machine.reachWith InTime (fun w a => decide (InTime w a))
    (fun _ _ => of_decide_eq_true) timelyActs (m := machine AccountCalls.plain) (s := Store.init 100)
    (P := fun w => w.answer 3 = some (delete,some (.account (.ok .done))) &&
      w.answer 5 = some (signInAgain,some (.account (.ok (.minted (some lateToken.text)))))) (by decide +kernel)
  simp only [Bool.and_eq_true,decide_eq_true_eq] at shown
  exact ⟨w,reach,answered shown.1,answered shown.2,nothingLeft reach⟩

end OpenuuServer.AccountDeletion
