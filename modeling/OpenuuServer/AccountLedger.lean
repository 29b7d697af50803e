import OpenuuServer.AccountFacts

/-! The account store against its own history. Calls run one after another, with the clock
moving on between them and between their statements; every answer is the one that the facts
of the history dictate. -/
namespace OpenuuServer.AccountLedger
open AtomicProgram UniqueTable AccountStore AccountCalls AccountFacts

/- A call on its own, before each of whose statements the clock may move on. -/
def ticking {α : Type} (prim : Primitives) : Prog Op Resp α → List Nat → Store → α × Store
  | .ret value,_,s => (value,s)
  | .op o next,ticks,s =>
    ticking prim (next (exec prim o (elapse (ticks.headD 0) s)).1) ticks.tail (exec prim o (elapse (ticks.headD 0) s)).2

def result (prim : Primitives) (c : Call) (ticks : List Nat) (s : Store) : Answer × Store :=
  ticking prim (program prim c) ticks s

def salts : Call → List String
  | .createUser _ _ salt | .setPassword _ _ salt => [salt]
  | _ => []

/- What is taken from the primitives: nothing is minted twice, the strings that were ever handled
do not collide, and bcrypt is exact. -/
structure Lawful (prim : Primitives) (past : List Entry) (c : Call) : Prop where
  fresh : ∀ e ∈ past, ∀ x ∈ c.minted, x ∉ e.call.minted
  apart : ∀ x ∈ past.flatMap (·.call.secrets) ++ c.secrets, ∀ y ∈ past.flatMap (·.call.secrets) ++ c.secrets,
    prim.digest x = prim.digest y → x = y
  exact : ∀ salt ∈ salts c, Exact prim salt

inductive History (prim : Primitives) : List Entry → Store → Prop where
  | start (now : Int) : History prim [] (Store.init now)
  | tick {past s} (before : History prim past s) (seconds : Nat) : History prim past (elapse seconds s)
  | call {past s} (before : History prim past s) (c : Call) (ticks : List Nat) (lawful : Lawful prim past c) :
    History prim (past ++ [⟨c,(result prim c ticks s).1,(result prim c ticks s).2.now⟩]) (result prim c ticks s).2

section Calls
variable {prim : Primitives} {f : List Fact} {s : Store} {ticks : List Nat} {c : Call}

theorem tickingMap {α β : Type} (g : α → β) (p : Prog Op Resp α) :
    ticking prim (g <$> p) ticks s = (g (ticking prim p ticks s).1,(ticking prim p ticks s).2) := by
  induction p generalizing ticks s with
  | ret value => rfl
  | op o next ih => exact ih _

theorem tickingOp {α : Type} {o : Op} {next : Resp o → Prog Op Resp α} {r : Resp o} {s' : Store}
    (done : exec prim o (elapse (ticks.headD 0) s) = (r,s')) :
    ticking prim (.op o next) ticks s = ticking prim (next r) ticks.tail s' := by
  rw [ticking,done]

/- The store after the call mirrors the facts with what the call has brought about. -/
structure Step (prim : Primitives) (f : List Fact) (s : Store) (c : Call) (ticks : List Nat) : Prop where
  dictated : Dictated f (s.now + ticks.headD 0) (result prim c ticks s).2.now (result prim c ticks s).1 c
  mirrors : Mirrors prim (f ++ (Entry.fact ⟨c,(result prim c ticks s).1,(result prim c ticks s).2.now⟩).toList)
    (result prim c ticks s).2

/- A call that brings nothing about and whose statements change nothing. -/
theorem stepStill (mirrors : Mirrors prim f s) {c : Call} {a : Answer} {s' : Store}
    (same : result prim c ticks s = (a,s')) (none : Entry.fact ⟨c,a,s'.now⟩ = none) (still : Still s s')
    (dictated : Dictated f (s.now + ticks.headD 0) s'.now a c) : Step prim f s c ticks := by
  constructor
  · rw [same]; exact dictated
  · rw [same]
    simp only [none,Option.toList_none,List.append_nil]
    exact mirrorsStill mirrors still

theorem stepDone {c : Call} {a : Answer} {s' : Store} {x : Fact} (same : result prim c ticks s = (a,s'))
    (brings : Entry.fact ⟨c,a,s'.now⟩ = some x) (mirrors : Mirrors prim (f ++ [x]) s')
    (dictated : Dictated f (s.now + ticks.headD 0) s'.now a c) : Step prim f s c ticks := by
  constructor
  · rw [same]; exact dictated
  · rw [same]
    simp only [brings,Option.toList_some]
    exact mirrors

theorem acceptsLength (mirrors : Mirrors prim f s) {now : Int} {name token : String} (accepts : Accepts f now name token) :
    token.utf8ByteSize = 64 := by
  obtain ⟨⟨time,issued,_⟩,_⟩ := accepts
  exact mirrors.lengths _ (issuedFact issued) token (by simp [Fact.mints])

theorem userStep (mirrors : Mirrors prim f s) {token : String} (apart : Apart prim f (.user token)) :
    Step prim f s (.user token) ticks := by
  by_cases length : token.utf8ByteSize = 64
  · have run : result prim (.user token) ticks s = (.ok (.name (((elapse (ticks.headD 0) s).joined.find? fun pair =>
        pair.1.tokenHash = prim.digest token && (elapse (ticks.headD 0) s).live pair).map fun pair => pair.2.name)),
        elapse (ticks.headD 0) s) := by
      simp only [result,program,answer,tickingMap,userTree,if_neg (not_not.mpr length)]
      rfl
    refine stepStill mirrors run rfl (elapseStill _ s) ⟨_,rfl,fun name => ?_⟩
    rw [selectUserIs]
    exact liveIff (mirrorsElapse mirrors _) apart (by simp [Call.secrets])
  · have run : result prim (.user token) ticks s = (.ok (.name none),s) := by
      simp only [result,program,answer,tickingMap,userTree,if_pos length]
      rfl
    refine stepStill mirrors run rfl (.refl s) ⟨_,rfl,fun name => ?_⟩
    exact iff_of_false (by simp) fun accepts => length (acceptsLength mirrors accepts)

/- `SELECT password_hash FROM accounts WHERE name=? AND enabled=1`, and bcrypt on what it finds. -/
theorem verifyIff (mirrors : Mirrors prim f s) {name password : String} :
    (match (s.accounts.rows.find? fun a => a.name = name && a.enabled).map (·.passwordHash) with
      | some h => prim.bcryptVerify password h
      | none => false) = true ↔ account f name = some (password,true) := by
  constructor
  · intro valid
    cases here : s.accounts.rows.find? fun a => a.name = name && a.enabled with
    | none => simp [here] at valid
    | some a =>
      have hit := List.find?_some here
      simp only [Bool.and_eq_true,decide_eq_true_eq] at hit
      obtain ⟨p,salt,exact,there,hash⟩ := accountRow mirrors (List.mem_of_find?_eq_some here)
      simp only [here,Option.map_some,hash] at valid
      rw [← hit.1,there,hit.2,(exact _ _).mp valid]
  · intro there
    obtain ⟨salt,exact,row⟩ := mirrors.accounts.known _ _ _ there
    cases here : s.accounts.rows.find? fun a => a.name = name && a.enabled with
    | none =>
      have missed := List.find?_eq_none.mp here _ row
      simp at missed
    | some a =>
      have hit := List.find?_some here
      simp only [Bool.and_eq_true,decide_eq_true_eq] at hit
      have same := sameRow (fun _ _ => Eq.symm) (memRows.mpr (List.mem_of_find?_eq_some here)) row hit.1
      rw [Option.map_some,same]
      exact (exact _ _).mpr rfl

theorem newText (apart : Apart prim f c) {text : String} (mine : text ∈ c.secrets) (fresh : ∀ x ∈ f, text ∉ x.mints) :
    New prim f text := by
  intro x inside y there clash
  have secret : y ∈ x.secrets := by
    cases x <;> simp_all [Fact.mints,Fact.secrets]
  have same := apart y (List.mem_append_left _ (List.mem_flatMap.mpr ⟨x,inside,secret⟩)) text (List.mem_append_right _ mine) clash
  exact fresh x inside (same ▸ there)

theorem loginStep (mirrors : Mirrors prim f s) {name password : String} {minted : Minted}
    (apart : Apart prim f (.login name password minted)) (fresh : ∀ x ∈ f, minted.text ∉ x.mints) :
    Step prim f s (.login name password minted) ticks := by
  by_cases size : name.utf8ByteSize > 64 ∨ password.utf8ByteSize > 72
  · have run : result prim (.login name password minted) ticks s = (.ok (.minted none),s) := by
      simp only [result,program,answer,tickingMap,loginTree,if_pos size]
      rfl
    refine stepStill mirrors run rfl (.refl s) (.inr ⟨rfl,fun there => ?_⟩)
    have sizes := mirrors.accounts.sizes _ _ _ there
    omega
  let one := elapse (ticks.headD 0) s
  let two := elapse (ticks.tail.headD 0) one
  let three := elapse (ticks.tail.tail.headD 0) two
  let four := elapse (ticks.tail.tail.tail.headD 0) (exec prim .purgeSessions three).2
  let hash := (one.accounts.rows.find? fun a => a.name = name && a.enabled).map (·.passwordHash)
  have first : Mirrors prim f one := mirrorsElapse mirrors _
  have read : exec prim (.selectHash name) one = (.ok hash,one) := rfl
  by_cases good : account f name = some (password,true)
  · have valid : exec prim (.verify password hash) two = (true,two) := Prod.ext ((verifyIff first).mpr good) rfl
    obtain ⟨rows,purge⟩ : ∃ rows, exec prim .purgeSessions three = (.ok rows,(exec prim .purgeSessions three).2) := ⟨_,rfl⟩
    have fourth : Mirrors prim f four := mirrorsElapse (mirrorsPurgeSessions (mirrorsElapse (mirrorsElapse first _) _)) _
    have known : account f name ≠ none := by simp [good]
    obtain ⟨done,last⟩ := mirrorsInsertSession fourth (newText apart (by simp [Call.secrets]) fresh) known
    have insert : exec prim (.insertSession (prim.digest minted.text) name) four = (.ok (),_) := Prod.ext done rfl
    have run : result prim (.login name password minted) ticks s =
        (.ok (.minted (some minted.text)),(exec prim (.insertSession (prim.digest minted.text) name) four).2) := by
      simp only [result,program,answer,tickingMap,loginTree,if_neg size]
      rw [tickingOp read,afterwards,tickingOp valid,if_neg (by simp),tickingOp purge,afterwards,tickingOp insert]
      rfl
    exact stepDone run (by simp [Entry.fact]) last (.inl ⟨rfl,good⟩)
  · have invalid : exec prim (.verify password hash) two = (false,two) :=
      Prod.ext (Bool.eq_false_iff.mpr (mt (verifyIff first).mp good)) rfl
    have run : result prim (.login name password minted) ticks s = (.ok (.minted none),two) := by
      simp only [result,program,answer,tickingMap,loginTree,if_neg size]
      rw [tickingOp read,afterwards,tickingOp invalid,if_pos rfl]
      rfl
    exact stepStill mirrors run rfl ((elapseStill _ _).trans (elapseStill _ _)) (.inr ⟨rfl,good⟩)

theorem ticketStep (mirrors : Mirrors prim f s) {token relayId : String} {minted : Minted}
    (apart : Apart prim f (.ticket token relayId minted)) (fresh : ∀ x ∈ f, minted.text ∉ x.mints) :
    Step prim f s (.ticket token relayId minted) ticks := by
  by_cases size : relayId.isEmpty = true ∨ relayId.utf8ByteSize > 128
  · have run : result prim (.ticket token relayId minted) ticks s = (.ok (.minted none),s) := by
      simp only [result,program,answer,tickingMap,ticketTree,if_pos size]
      rfl
    refine stepStill mirrors run rfl (.refl s) (.inr ⟨rfl,fun granted => ?_⟩)
    rcases size with empty | long
    · exact granted.1 (String.isEmpty_iff.mp empty)
    · have short := granted.2.1
      omega
  by_cases length : token.utf8ByteSize = 64
  swap
  · have run : result prim (.ticket token relayId minted) ticks s = (.ok (.minted none),s) := by
      simp only [result,program,answer,tickingMap,ticketTree,if_neg size,if_pos length]
      rfl
    refine stepStill mirrors run rfl (.refl s) (.inr ⟨rfl,fun granted => length ?_⟩)
    obtain ⟨_,_,_,accepts⟩ := granted
    exact acceptsLength mirrors accepts
  let one := elapse (ticks.headD 0) s
  let two := elapse (ticks.tail.headD 0) one
  let three := elapse (ticks.tail.tail.headD 0) (exec prim .purgeTickets two).2
  have first : Mirrors prim f one := mirrorsElapse mirrors _
  have found : ∀ name, (one.joined.find? fun pair => pair.1.tokenHash = prim.digest token && one.live pair).map
      (fun pair => pair.2.name) = some name ↔ Accepts f one.now name token :=
    fun name => selectUserIs.trans (liveIff first apart (by simp [Call.secrets]))
  have select : exec prim (.selectUser (prim.digest token)) one = (.ok ((one.joined.find? fun pair =>
    pair.1.tokenHash = prim.digest token && one.live pair).map fun pair => pair.2.name),one) := rfl
  generalize (one.joined.find? fun pair => pair.1.tokenHash = prim.digest token && one.live pair).map
    (fun pair => pair.2.name) = owner at found select
  cases owner with
  | none =>
    have run : result prim (.ticket token relayId minted) ticks s = (.ok (.minted none),one) := by
      simp only [result,program,answer,tickingMap,ticketTree,if_neg size,if_neg (not_not.mpr length)]
      rw [tickingOp select,afterwards,if_pos (by simp)]
      rfl
    refine stepStill mirrors run rfl (elapseStill _ s) (.inr ⟨rfl,fun granted => ?_⟩)
    obtain ⟨_,_,name,accepts⟩ := granted
    cases (found name).mpr accepts
  | some name =>
    have accepts := (found name).mp rfl
    obtain ⟨since,issued,_⟩ := accepts.1
    obtain ⟨rows,purge⟩ : ∃ rows, exec prim .purgeTickets two = (.ok rows,(exec prim .purgeTickets two).2) := ⟨_,rfl⟩
    have third : Mirrors prim f three := mirrorsElapse (mirrorsPurgeTickets (mirrorsElapse first _)) _
    obtain ⟨done,last⟩ := mirrorsInsertTicket third relayId (newText apart (by simp [Call.secrets]) fresh)
      ⟨name,since,issuedFact issued⟩
    have insert : exec prim (.insertTicket (prim.digest minted.text) (prim.digest token) relayId) three = (.ok (),_) :=
      Prod.ext done rfl
    have run : result prim (.ticket token relayId minted) ticks s = (.ok (.minted (some minted.text)),
        (exec prim (.insertTicket (prim.digest minted.text) (prim.digest token) relayId) three).2) := by
      simp only [result,program,answer,tickingMap,ticketTree,if_neg size,if_neg (not_not.mpr length)]
      rw [tickingOp select,afterwards,if_neg (by simp),tickingOp purge,afterwards,tickingOp insert]
      rfl
    rw [not_or,String.isEmpty_iff] at size
    exact stepDone run (by simp [Entry.fact]) last (.inl ⟨rfl,size.1,by omega,name,accepts⟩)

theorem redeemStep (mirrors : Mirrors prim f s) {text relayId : String} (apart : Apart prim f (.redeem text relayId)) :
    Step prim f s (.redeem text relayId) ticks := by
  by_cases length : text.utf8ByteSize = 64
  swap
  · have run : result prim (.redeem text relayId) ticks s = (.ok (.redeemed false),s) := by
      simp only [result,program,answer,tickingMap,redeemTree,if_pos length]
      rfl
    refine stepStill mirrors run rfl (.refl s) ⟨false,rfl,iff_of_false (by simp) fun good => length ?_⟩
    obtain ⟨token,time,minted,_⟩ := good
    exact mirrors.lengths _ (mintedFact minted) text (by simp [Fact.mints])
  let one := elapse (ticks.headD 0) s
  have first : Mirrors prim f one := mirrorsElapse mirrors _
  have mine : text ∈ f.flatMap Fact.secrets ++ (Call.redeem text relayId).secrets := by simp [Call.secrets]
  by_cases good : Redeemable f one.now text relayId
  · obtain ⟨hit,last⟩ := mirrorsRedeem first apart mine good
    have redeems : exec prim (.redeemTicket (prim.digest text) relayId) one = (.ok 1,_) := Prod.ext hit rfl
    have run : result prim (.redeem text relayId) ticks s =
        (.ok (.redeemed true),(exec prim (.redeemTicket (prim.digest text) relayId) one).2) := by
      simp only [result,program,answer,tickingMap,redeemTree,if_neg (not_not.mpr length)]
      rw [tickingOp redeems]
      rfl
    refine stepDone run rfl last ⟨true,rfl,iff_of_true rfl ?_⟩
    rw [execNow]
    exact good
  · have run : result prim (.redeem text relayId) ticks s = (.ok (.redeemed false),one) := by
      simp only [result,program,answer,tickingMap,redeemTree,if_neg (not_not.mpr length)]
      rw [tickingOp (redeemNothing first apart mine good)]
      rfl
    exact stepStill mirrors run rfl (elapseStill _ s) ⟨false,rfl,iff_of_false (by simp) good⟩

theorem revokeStep (mirrors : Mirrors prim f s) {token : String} (apart : Apart prim f (.revoke token)) :
    Step prim f s (.revoke token) ticks := by
  let one := elapse (ticks.headD 0) s
  have run : result prim (.revoke token) ticks s = (.ok .done,(exec prim (.revokeSession (prim.digest token)) one).2) := by
    simp only [result,program,answer,tickingMap,revokeTree]
    rfl
  have last := mirrorsRevokeSession (mirrorsElapse mirrors (ticks.headD 0)) apart
  exact stepDone run rfl last rfl

theorem createUserStep (mirrors : Mirrors prim f s) {name password salt : String} (exact : Exact prim salt) :
    Step prim f s (.createUser name password salt) ticks := by
  by_cases valid : validName name = true
  swap
  · have run : ∃ e, result prim (.createUser name password salt) ticks s = (.error e,s) := by
      simp only [result,program,answer,tickingMap,createUserTree,if_pos (Bool.not_eq_true _ ▸ valid)]
      exact ⟨_,rfl⟩
    obtain ⟨e,run⟩ := run
    exact stepStill mirrors run rfl (.refl s) (iff_of_false (by simp) fun granted => valid granted.1)
  have invalid : ¬ validName name = false := by simp [valid]
  by_cases size : password.utf8ByteSize < 12 ∨ password.utf8ByteSize > 72
  · have run : ∃ e, result prim (.createUser name password salt) ticks s = (.error e,s) := by
      simp only [result,program,answer,tickingMap,createUserTree,if_neg invalid,if_pos size]
      exact ⟨_,rfl⟩
    obtain ⟨e,run⟩ := run
    refine stepStill mirrors run rfl (.refl s) (iff_of_false (by simp) fun granted => ?_)
    obtain ⟨_,low,high,_⟩ := granted
    omega
  let one := elapse (ticks.headD 0) s
  have first : Mirrors prim f one := mirrorsElapse mirrors _
  cases there : account f name with
  | some pair =>
    have taken : one.accounts.insert ⟨name,prim.bcryptHash password salt,true⟩ = none := by
      rw [← Option.not_isSome_iff_eq_none,insertIsSome]
      intro free
      obtain ⟨a,inside,same⟩ := (hasAccountIff first.accounts).mpr (by rw [there]; simp)
      exact free a inside same
    have insert : exec prim (.insertAccount name (prim.bcryptHash password salt)) one = (.error .constraint,one) := by
      simp only [exec,taken,inserted]
    have run : result prim (.createUser name password salt) ticks s = (.error (.database .constraint),one) := by
      simp only [result,program,answer,tickingMap,createUserTree,if_neg invalid,if_neg size]
      rw [tickingOp insert]
      rfl
    exact stepStill mirrors run rfl (elapseStill _ s) (iff_of_false (by simp) (by simp [there]))
  | none =>
    have free : (one.accounts.insert ⟨name,prim.bcryptHash password salt,true⟩).isSome = true :=
      insertIsSome.mpr (first.accounts.unknown name there)
    obtain ⟨t,done⟩ := Option.isSome_iff_exists.mp free
    have insert : exec prim (.insertAccount name (prim.bcryptHash password salt)) one = (.ok (),{ one with accounts := t }) :=
      insertedSome done
    have run : result prim (.createUser name password salt) ticks s = (.ok .done,{ one with accounts := t }) := by
      simp only [result,program,answer,tickingMap,createUserTree,if_neg invalid,if_neg size]
      rw [tickingOp insert]
      rfl
    have short : name.utf8ByteSize ≤ 64 := by
      simp only [validName,Bool.and_eq_true,decide_eq_true_eq] at valid
      exact valid.1.2
    have listed := listedCreated first.accounts exact ⟨short,by omega⟩ done
    refine stepDone run rfl (mirrorsAfter first rfl (Int.le_refl _) listed ?_
      (fun row inside => inside) ?_ (fun k inside => inside)
      (by simp) (fun _ _ _ _ _ _ _ _ inside _ _ => inside)) (iff_of_true rfl ⟨valid,by omega,by omega,there⟩)
    · intro name' token time issued _
      have before := first.owned _ _ _ issued
      simp only [Fact.change]
      split <;> simp [before]
    · exact fun name' token time _ inside => iff_of_true inside id

/- The UPDATE of an account that is not there. -/
theorem noAccount (listed : Listed prim f s.accounts) {name : String} (none : account f name = none) :
    s.accounts.affected (fun a => a.name = name) = 0 :=
  affectedZero.mpr fun a inside => decide_eq_false (listed.unknown name none a inside)

theorem someAccount (listed : Listed prim f s.accounts) {name : String} (some : account f name ≠ none) :
    s.accounts.affected (fun a => a.name = name) ≠ 0 := by
  obtain ⟨a,inside,same⟩ := (hasAccountIff listed).mpr some
  exact Nat.pos_iff_ne_zero.mp (affectedPos.mpr ⟨a,inside,decide_eq_true same⟩)

theorem setPasswordStep (mirrors : Mirrors prim f s) {name password salt : String} (exact : Exact prim salt) :
    Step prim f s (.setPassword name password salt) ticks := by
  by_cases size : password.utf8ByteSize < 12 ∨ password.utf8ByteSize > 72
  · have run : ∃ e, result prim (.setPassword name password salt) ticks s = (.error e,s) := by
      simp only [result,program,answer,tickingMap,setPasswordTree,if_pos size]
      exact ⟨_,rfl⟩
    obtain ⟨e,run⟩ := run
    refine stepStill mirrors run rfl (.refl s) (iff_of_false (by simp) fun granted => ?_)
    obtain ⟨low,high,_⟩ := granted
    omega
  let one := elapse (ticks.headD 0) s
  have first : Mirrors prim f one := mirrorsElapse mirrors _
  by_cases there : account f name = none
  · have same : one.accounts.amend (fun a => a.name = name) (fun a => { a with passwordHash := prim.bcryptHash password salt })
        (keepKey Account.name fun _ => rfl) = one.accounts :=
      amendSame.mpr fun a inside hit => absurd (of_decide_eq_true hit) (first.accounts.unknown name there a inside)
    have update : exec prim (.updatePassword (prim.bcryptHash password salt) name) one = (.ok 0,one) := by
      simp only [exec,noAccount first.accounts there,same]
    have run : ∃ e, result prim (.setPassword name password salt) ticks s = (.error e,one) := by
      simp only [result,program,answer,tickingMap,setPasswordTree,if_neg size]
      rw [tickingOp update,afterwards,if_pos rfl]
      exact ⟨_,rfl⟩
    obtain ⟨e,run⟩ := run
    exact stepStill mirrors run rfl (elapseStill _ s) (iff_of_false (by simp) fun granted => granted.2.2 there)
  · let two := elapse (ticks.tail.headD 0) (exec prim (.updatePassword (prim.bcryptHash password salt) name) one).2
    let three := elapse (ticks.tail.tail.headD 0) (exec prim (.deleteTicketsOf name) two).2
    obtain ⟨n,some,update⟩ : ∃ n, n ≠ 0 ∧ exec prim (.updatePassword (prim.bcryptHash password salt) name) one =
        (.ok n,(exec prim (.updatePassword (prim.bcryptHash password salt) name) one).2) :=
      ⟨_,someAccount first.accounts there,rfl⟩
    obtain ⟨_,tickets⟩ : ∃ n, exec prim (.deleteTicketsOf name) two = (.ok n,(exec prim (.deleteTicketsOf name) two).2) := ⟨_,rfl⟩
    obtain ⟨_,sessions⟩ :
      ∃ n, exec prim (.deleteSessionsOf name) three = (.ok n,(exec prim (.deleteSessionsOf name) three).2) := ⟨_,rfl⟩
    have run : result prim (.setPassword name password salt) ticks s =
        (.ok .done,(exec prim (.deleteSessionsOf name) three).2) := by
      simp only [result,program,answer,tickingMap,setPasswordTree,if_neg size]
      rw [tickingOp update,afterwards,if_neg some,revokeUserTree,tickingOp tickets,afterwards,tickingOp sessions]
      rfl
    have listed : Listed prim (f ++ [.passwordSet name password]) (one.accounts.amend (fun a => a.name = name)
        (fun a => { a with passwordHash := prim.bcryptHash password salt }) (keepKey Account.name fun _ => rfl)) := by
      refine listedAmended first.accounts (g := fun a => { a with passwordHash := prim.bcryptHash password salt })
        (h := fun pair => (password,pair.2)) (fun a => memAmend.trans (by simp)) (fun _ => rfl) (fun _ => rfl) ?_
      have short : password.utf8ByteSize ≤ 72 := by omega
      exact fun p b salt' _ _ => ⟨short,salt,exact,rfl⟩
    have later : one.now ≤ (exec prim (.deleteSessionsOf name) three).2.now := by
      simp only [execNow,three,two,elapse]
      omega
    refine stepDone run rfl (mirrorsRevokeUser first rfl (fun _ _ => Iff.rfl) later listed
      (fun name' other before => ?_) rfl rfl (by simp))
      (iff_of_true rfl ⟨by omega,by omega,there⟩)
    simp only [Fact.change,if_neg (Ne.symm other)]
    exact before

theorem setEnabledStep (mirrors : Mirrors prim f s) {name : String} {enabled : Bool} :
    Step prim f s (.setEnabled name enabled) ticks := by
  let one := elapse (ticks.headD 0) s
  have first : Mirrors prim f one := mirrorsElapse mirrors _
  by_cases there : account f name = none
  · have same : one.accounts.amend (fun a => a.name = name) (fun a => { a with enabled := enabled })
        (keepKey Account.name fun _ => rfl) = one.accounts :=
      amendSame.mpr fun a inside hit => absurd (of_decide_eq_true hit) (first.accounts.unknown name there a inside)
    have update : exec prim (.updateEnabled enabled name) one = (.ok 0,one) := by
      simp only [exec,noAccount first.accounts there,same]
    have run : ∃ e, result prim (.setEnabled name enabled) ticks s = (.error e,one) := by
      simp only [result,program,answer,tickingMap,setEnabledTree]
      rw [tickingOp update,afterwards,if_pos rfl]
      exact ⟨_,rfl⟩
    obtain ⟨e,run⟩ := run
    exact stepStill mirrors run rfl (elapseStill _ s) (iff_of_false (by simp) fun granted => granted there)
  obtain ⟨n,some,update⟩ : ∃ n, n ≠ 0 ∧ exec prim (.updateEnabled enabled name) one =
      (.ok n,(exec prim (.updateEnabled enabled name) one).2) := ⟨_,someAccount first.accounts there,rfl⟩
  have listed : Listed prim (f ++ [.enabledSet name enabled]) (one.accounts.amend (fun a => a.name = name)
      (fun a => { a with enabled := enabled }) (keepKey Account.name fun _ => rfl)) := by
    refine listedAmended first.accounts (g := fun a => { a with enabled := enabled })
      (h := fun pair => (pair.1,enabled)) (fun a => memAmend.trans (by simp)) (fun _ => rfl) (fun _ => rfl) ?_
    exact fun p b salt short exact => ⟨short,salt,exact,rfl⟩
  have others : ∀ name', account f name' ≠ none → (Fact.enabledSet name enabled).change name' (account f name') ≠ none := by
    intro name' before
    simp only [Fact.change]
    split <;> simp [before]
  cases enabled with
  | true =>
    have run : result prim (.setEnabled name true) ticks s = (.ok .done,(exec prim (.updateEnabled true name) one).2) := by
      simp only [result,program,answer,tickingMap,setEnabledTree]
      rw [tickingOp update,afterwards,if_neg some]
      rfl
    refine stepDone run rfl (mirrorsAfter first rfl (Int.le_refl _) listed
      (fun name' _ _ issued _ => others _ (first.owned _ _ _ issued))
      (fun row inside => inside) (fun name' token time _ inside => iff_of_true inside id) (fun k inside => inside)
      (by simp) (fun _ _ _ _ _ _ _ _ inside _ _ => inside)) (iff_of_true rfl there)
  | false =>
    let two := elapse (ticks.tail.headD 0) (exec prim (.updateEnabled false name) one).2
    let three := elapse (ticks.tail.tail.headD 0) (exec prim (.deleteTicketsOf name) two).2
    obtain ⟨_,tickets⟩ : ∃ n, exec prim (.deleteTicketsOf name) two = (.ok n,(exec prim (.deleteTicketsOf name) two).2) := ⟨_,rfl⟩
    obtain ⟨_,sessions⟩ :
      ∃ n, exec prim (.deleteSessionsOf name) three = (.ok n,(exec prim (.deleteSessionsOf name) three).2) := ⟨_,rfl⟩
    have run : result prim (.setEnabled name false) ticks s = (.ok .done,(exec prim (.deleteSessionsOf name) three).2) := by
      simp only [result,program,answer,tickingMap,setEnabledTree]
      rw [tickingOp update,afterwards,if_neg some,if_neg (by simp),revokeUserTree,tickingOp tickets,afterwards,tickingOp sessions]
      rfl
    have later : one.now ≤ (exec prim (.deleteSessionsOf name) three).2.now := by
      simp only [execNow,three,two,elapse]
      omega
    exact stepDone run rfl (mirrorsRevokeUser first rfl (fun _ _ => Iff.rfl) later listed
      (fun name' _ before => others _ before) rfl rfl (by simp))
      (iff_of_true rfl there)

theorem deleteUserStep (mirrors : Mirrors prim f s) {name : String} : Step prim f s (.deleteUser name) ticks := by
  let one := elapse (ticks.headD 0) s
  let two := elapse (ticks.tail.headD 0) (exec prim (.deleteTicketsOf name) one).2
  let three := elapse (ticks.tail.tail.headD 0) (exec prim (.deleteSessionsOf name) two).2
  let four := elapse (ticks.tail.tail.tail.headD 0) (exec prim (.deleteJobsOf name) three).2
  let five := elapse (ticks.tail.tail.tail.tail.headD 0) (exec prim (.deleteDevicesOf name) four).2
  let last := (exec prim (.deleteAccount name) five).2
  have first : Mirrors prim f one := mirrorsElapse mirrors _
  have later : one.now ≤ last.now := by
    simp only [last,execNow,five,four,three,two,elapse]
    omega
  obtain ⟨_,tickets⟩ : ∃ n, exec prim (.deleteTicketsOf name) one = (.ok n,(exec prim (.deleteTicketsOf name) one).2) := ⟨_,rfl⟩
  obtain ⟨_,sessions⟩ :
    ∃ n, exec prim (.deleteSessionsOf name) two = (.ok n,(exec prim (.deleteSessionsOf name) two).2) := ⟨_,rfl⟩
  obtain ⟨_,jobs⟩ : ∃ n, exec prim (.deleteJobsOf name) three = (.ok n,(exec prim (.deleteJobsOf name) three).2) := ⟨_,rfl⟩
  obtain ⟨_,devices⟩ : ∃ n, exec prim (.deleteDevicesOf name) four = (.ok n,(exec prim (.deleteDevicesOf name) four).2) := ⟨_,rfl⟩
  by_cases there : account f name = none
  · -- without an account there are no sessions either, and nothing is deleted
    have accounts : exec prim (.deleteAccount name) five = (.ok 0,last) :=
      Prod.ext (congrArg Except.ok (noAccount first.accounts there)) rfl
    have run : ∃ e, result prim (.deleteUser name) ticks s = (.error e,last) := by
      simp only [result,program,answer,tickingMap,deleteUserTree]
      rw [tickingOp tickets,afterwards,tickingOp sessions,afterwards,tickingOp jobs,afterwards,tickingOp devices,afterwards,
        tickingOp accounts,afterwards,if_pos rfl]
      exact ⟨_,rfl⟩
    obtain ⟨e,run⟩ := run
    have none : ∀ row ∈ one.sessions, row.name ≠ name := by
      rintro row inside rfl
      obtain ⟨token,time,issued,_⟩ := first.sessions row inside
      exact first.owned _ _ _ issued there
    have still : Still one last := by
      refine ⟨?_,?_,?_,later⟩
      · exact deleteSame.mpr fun a inside => decide_eq_false (first.accounts.unknown name there a inside)
      · exact deleteSame.mpr fun row inside => decide_eq_false (none row inside)
      · refine deleteSame.mpr fun k inside => decide_eq_false ?_
        simp only [List.mem_map,List.mem_filter,decide_eq_true_eq]
        rintro ⟨row,⟨there',same⟩,_⟩
        exact none row there' same
    exact stepStill mirrors run rfl ((elapseStill _ s).trans still) (iff_of_false (by simp) fun granted => granted there)
  · obtain ⟨n,some,accounts⟩ : ∃ n, n ≠ 0 ∧ exec prim (.deleteAccount name) five = (.ok n,last) :=
      ⟨_,someAccount first.accounts there,rfl⟩
    have run : result prim (.deleteUser name) ticks s = (.ok .done,last) := by
      simp only [result,program,answer,tickingMap,deleteUserTree]
      rw [tickingOp tickets,afterwards,tickingOp sessions,afterwards,tickingOp jobs,afterwards,tickingOp devices,afterwards,
        tickingOp accounts,afterwards,if_neg some]
      rfl
    refine stepDone run rfl (mirrorsRevokeUser first rfl (fun _ _ => Iff.rfl) later (listedDeleted first.accounts name)
      (fun name' other before => ?_) rfl rfl (by simp)) (iff_of_true rfl there)
    simp only [Fact.change,if_neg (Ne.symm other)]
    exact before

theorem callStep (mirrors : Mirrors prim f s) (apart : Apart prim f c) (fresh : ∀ text ∈ c.minted, ∀ x ∈ f, text ∉ x.mints)
    (exact : ∀ salt ∈ salts c, Exact prim salt) : Step prim f s c ticks := by
  cases c with
  | createUser name password salt => exact createUserStep mirrors (exact salt (by simp [salts]))
  | setPassword name password salt => exact setPasswordStep mirrors (exact salt (by simp [salts]))
  | setEnabled name enabled => exact setEnabledStep mirrors
  | deleteUser name => exact deleteUserStep mirrors
  | user token => exact userStep mirrors apart
  | login name password minted => exact loginStep mirrors apart (fresh _ (by simp [Call.minted]))
  | ticket token relayId minted => exact ticketStep mirrors apart (fresh _ (by simp [Call.minted]))
  | redeem text relayId => exact redeemStep mirrors apart
  | revoke token => exact revokeStep mirrors apart

/- A ticket that is not redeemed costs nothing. -/
theorem redeemFalseSame {text relayId : String} (no : (result prim (.redeem text relayId) ticks s).1 = .ok (.redeemed false)) :
    ∃ n, (result prim (.redeem text relayId) ticks s).2 = elapse n s := by
  by_cases length : text.utf8ByteSize = 64
  · let one := elapse (ticks.headD 0) s
    have run : result prim (.redeem text relayId) ticks s =
        (.ok (.redeemed (one.tickets.affected (fun k => k.hash = prim.digest text ∧ k.relayId = relayId ∧ one.now < k.expires ∧
          k.sessionHash ∈ one.liveHashes) = 1)),(exec prim (.redeemTicket (prim.digest text) relayId) one).2) := by
      simp only [result,program,answer,tickingMap,redeemTree,if_neg (not_not.mpr length)]
      rfl
    rw [run] at no ⊢
    have atMost : one.tickets.affected (fun k => k.hash = prim.digest text ∧ k.relayId = relayId ∧ one.now < k.expires ∧
        k.sessionHash ∈ one.liveHashes) ≤ 1 :=
      affectedAtMostOne fun a b left right => (of_decide_eq_true left).1.trans (of_decide_eq_true right).1.symm
    have notOne := of_decide_eq_false (Reply.redeemed.inj (Except.ok.inj no))
    have none := affectedZero.mp (Nat.lt_one_iff.mp (Nat.lt_of_le_of_ne atMost notOne))
    refine ⟨ticks.headD 0,?_⟩
    simp only [exec,deleteSame.mpr none]
    rfl
  · refine ⟨0,?_⟩
    simp only [result,program,answer,tickingMap,redeemTree,if_pos length]
    simp [ticking,elapse]

end Calls

section Histories
variable {prim : Primitives} {past : List Entry} {s : Store}

/- The strings of a fact are those of its call. -/
theorem factStrings {f : List Fact} {first last time : Int} {a : Answer} {c : Call} {x : Fact}
    (dictated : Dictated f first last a c)
    (brings : Entry.fact ⟨c,a,time⟩ = some x) :
    (∀ y ∈ x.secrets, y ∈ c.secrets) ∧ ∀ y ∈ x.mints, y ∈ c.minted := by
  unfold Entry.fact at brings
  split at brings <;> cases brings <;> rename_i call answer <;> dsimp only at call answer <;> subst call answer
  all_goals simp [Fact.secrets,Fact.mints,Call.secrets,Call.minted,Dictated] at dictated ⊢
  -- left are the two calls that mint: what they answer is their own string
  · exact dictated.1
  · exact ⟨.inr dictated.1,dictated.1⟩

def Grounded (past : List Entry) : Prop := ∀ x ∈ facts past, ∃ e ∈ past,
  (∀ y ∈ x.secrets, y ∈ e.call.secrets) ∧ ∀ y ∈ x.mints, y ∈ e.call.minted

theorem mirrorsEmpty (now : Int) : Mirrors prim [] (Store.init now) := by
  refine ⟨⟨fun name p b there => ?_,fun name _ a inside => absurd inside notMemEmpty,fun name p b there => ?_⟩,
    fun row inside => absurd inside notMemEmpty,fun name token time issued => absurd issued notSinceNil,
    fun name token time issued => absurd issued notSinceNil,fun k inside => absurd inside notMemEmpty,
    fun text relayId token time name since minted => absurd minted notSinceNil,by simp,by simp⟩
  · simp [account] at there
  · simp [account] at there

theorem lawfulStep (mirrors : Mirrors prim (facts past) s) (grounded : Grounded past) {c : Call} (lawful : Lawful prim past c)
    (ticks : List Nat) : Step prim (facts past) s c ticks := by
  have known : ∀ y ∈ (facts past).flatMap Fact.secrets ++ c.secrets, y ∈ past.flatMap (·.call.secrets) ++ c.secrets := by
    intro y inside
    rcases List.mem_append.mp inside with old | new
    · obtain ⟨x,there,mine⟩ := List.mem_flatMap.mp old
      obtain ⟨e,member,secrets,_⟩ := grounded x there
      exact List.mem_append_left _ (List.mem_flatMap.mpr ⟨e,member,secrets y mine⟩)
    · exact List.mem_append_right _ new
  refine callStep mirrors (fun x left y right => lawful.apart x (known x left) y (known y right)) ?_ lawful.exact
  intro text mine x there minted
  obtain ⟨e,member,_,mints⟩ := grounded x there
  exact lawful.fresh e member text mine (mints text minted)

theorem historyMirrors (history : History prim past s) : Mirrors prim (facts past) s ∧ Grounded past := by
  induction history with
  | start now => exact ⟨mirrorsEmpty now,by simp [Grounded,facts]⟩
  | tick before seconds ih => exact ⟨mirrorsElapse ih.1 seconds,ih.2⟩
  | @call past s before c ticks lawful ih =>
    obtain ⟨mirrors,grounded⟩ := ih
    obtain ⟨dictated,after⟩ := lawfulStep mirrors grounded lawful ticks
    have later : ∀ e : Entry, facts (past ++ [e]) = facts past ++ e.fact.toList := by
      intro e
      cases brings : e.fact <;> simp [facts,brings]
    refine ⟨by rw [later]; exact after,fun x inside => ?_⟩
    rw [later] at inside
    rcases List.mem_append.mp inside with old | new
    · obtain ⟨e,member,rest⟩ := grounded x old
      exact ⟨e,List.mem_append_left _ member,rest⟩
    · exact ⟨_,List.mem_append_right _ List.mem_cons_self,factStrings dictated (Option.mem_toList.mp new)⟩

end Histories

/- Every answer is the one that the history dictates, and a refused ticket changes no row. -/
theorem answersAreDictated {prim : Primitives} {past : List Entry} {s : Store} (history : History prim past s) {c : Call}
    (lawful : Lawful prim past c) (ticks : List Nat) :
    Dictated (facts past) (s.now + ticks.headD 0) (result prim c ticks s).2.now (result prim c ticks s).1 c ∧
    ∀ text relayId, c = .redeem text relayId → (result prim c ticks s).1 = .ok (.redeemed false) →
      ∃ n, (result prim c ticks s).2 = elapse n s := by
  obtain ⟨mirrors,grounded⟩ := historyMirrors history
  refine ⟨(lawfulStep mirrors grounded lawful ticks).dictated,?_⟩
  rintro text relayId rfl no
  exact redeemFalseSame no

def ledgerToken : Minted := mintedA
def ledgerTicket : Minted := mintedB

theorem plainExact : Exact plain "salt" := by
  intro p q
  have salted : ("salt" ++ q).toList.drop 4 = q.toList := by
    rw [String.toList_append]
    rfl
  simp only [plain,salted,beq_iff_eq,String.toList_inj]
  exact eq_comm

def ledgerCreate : Call := .createUser "tester" "long-test-password" "salt"
def ledgerLogin : Call := .login "tester" "long-test-password" ledgerToken
def ledgerMint : Call := .ticket ledgerToken.text "relay-1" ledgerTicket

/- A ticket that the history calls good is redeemed 59 seconds after it was minted. -/
theorem ledgerTicketRedeemed : ∃ past s, History plain past s ∧
    (result plain (.redeem ledgerTicket.text "relay-1") [] s).1 = .ok (.redeemed true) ∧
    Redeemable (facts past) (result plain (.redeem ledgerTicket.text "relay-1") [] s).2.now ledgerTicket.text "relay-1" := by
  let one := (result plain ledgerCreate [] (Store.init 100)).2
  let two := (result plain ledgerLogin [] one).2
  let last := elapse 59 (result plain ledgerMint [] two).2
  have start : History plain [] (Store.init 100) := .start 100
  have first := History.call start ledgerCreate [] ⟨by simp,by decide +kernel,by simp [ledgerCreate,salts,plainExact]⟩
  have second := History.call first ledgerLogin [] ⟨by decide +kernel,by decide +kernel,by simp [ledgerLogin,salts]⟩
  have third := History.call second ledgerMint [] ⟨by decide +kernel,by decide +kernel,by simp [ledgerMint,salts]⟩
  have fourth := History.tick third 59
  have redeems : (result plain (.redeem ledgerTicket.text "relay-1") [] last).1 = .ok (.redeemed true) := by decide +kernel
  obtain ⟨⟨success,answer,good⟩,_⟩ := answersAreDictated (c := .redeem ledgerTicket.text "relay-1") fourth
    ⟨by decide +kernel,by decide +kernel,by simp [salts]⟩ []
  have yes : success = true := by
    have same := answer.symm.trans redeems
    exact Reply.redeemed.inj (Except.ok.inj same)
  exact ⟨_,last,fourth,redeems,good.mp yes⟩

end OpenuuServer.AccountLedger
