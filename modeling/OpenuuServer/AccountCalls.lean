import OpenuuServer.AccountStore

/-! Calls of the account store made by openuu-account, hbbs and hbbr at the same time. A call
is a task of the pool; the only other thing that happens is that the clock moves on. -/
namespace OpenuuServer.AccountCalls
open AtomicProgram UniqueTable AccountStore

inductive Call where
  | createUser (name password salt : String)
  | setPassword (name password salt : String)
  | setEnabled (name : String) (enabled : Bool)
  | deleteUser (name : String)
  | user (token : String)
  | login (name password : String) (minted : Minted)
  | ticket (token relayId : String) (minted : Minted)
  | redeem (ticket relayId : String)
  | revoke (token : String)
  deriving DecidableEq

inductive Reply where
  | done
  | name (owner : Option String)
  | minted (text : Option String)
  | redeemed (success : Bool)
  deriving DecidableEq, Repr

abbrev Answer := Except Error Reply

def answer {β : Type} (f : β → Reply) (p : Fallible β) : Prog Op Resp Answer := Except.map f <$> p.run

def program (prim : Primitives) : Call → Prog Op Resp Answer
  | .createUser name password salt => answer (fun _ => .done) (createUser prim name password salt)
  | .setPassword name password salt => answer (fun _ => .done) (setPassword prim name password salt)
  | .setEnabled name enabled => answer (fun _ => .done) (setEnabled name enabled)
  | .deleteUser name => answer (fun _ => .done) (deleteUser name)
  | .user token => answer .name (user prim token)
  | .login name password minted => answer .minted (login prim name password minted)
  | .ticket token relayId minted => answer .minted (ticket prim token relayId minted)
  | .redeem k relayId => answer .redeemed (redeem prim k relayId)
  | .revoke token => answer (fun _ => .done) (revoke prim token)

abbrev World := Pool Op Resp Call Store Answer

def machine (prim : Primitives) : Machine Op Resp Call Nat Store Answer where
  program := fun _ c => program prim c
  exec := exec prim
  ready := fun _ _ => true
  env := fun seconds s => { s with now := s.now + seconds }
  kills := fun _ => false

/- The answer of a call that nothing interrupts. -/
def calling (prim : Primitives) (s : Store) (c : Call) : Answer := ((program prim c).run (exec prim) s).1

/- The operations a call may execute, with the arguments it gives them. -/
def Belongs (prim : Primitives) (c : Call) : Op → Prop
  | .insertAccount name _ => ∃ password salt, c = .createUser name password salt
  | .updatePassword _ name => ∃ password salt, c = .setPassword name password salt
  | .updateEnabled enabled name => c = .setEnabled name enabled
  | .deleteAccount name | .deleteJobsOf name | .deleteDevicesOf name => c = .deleteUser name
  | .deleteTicketsOf name | .deleteSessionsOf name =>
    (∃ password salt, c = .setPassword name password salt) ∨ c = .setEnabled name false ∨ c = .deleteUser name
  | .selectUser h => (∃ token, c = .user token ∧ h = prim.digest token) ∨
    ∃ token relayId minted, c = .ticket token relayId minted ∧ h = prim.digest token
  | .selectHash name => ∃ password minted, c = .login name password minted
  | .verify password _ => ∃ name minted, c = .login name password minted
  | .purgeSessions => ∃ name password minted, c = .login name password minted
  | .insertSession h name => ∃ password minted, c = .login name password minted ∧ h = prim.digest minted.text
  | .purgeTickets => ∃ token relayId minted, c = .ticket token relayId minted
  | .insertTicket h sessionHash relayId => ∃ token minted, c = .ticket token relayId minted ∧
    h = prim.digest minted.text ∧ sessionHash = prim.digest token
  | .redeemTicket h relayId => ∃ k, c = .redeem k relayId ∧ h = prim.digest k
  | .revokeSession h => ∃ token, c = .revoke token ∧ h = prim.digest token

@[simp] theorem everyAfterwards {β γ : Type} {P : Op → Prop} {next : β → Prog Op Resp (Except Error γ)} :
    (∀ r, (afterwards next r).Every P) ↔ ∀ value, (next value).Every P := by
  constructor
  · intro h value; exact h (.ok value)
  · intro h r
    cases r with
    | ok value => exact h value
    | error e => exact everyRet

@[simp] theorem risingAfterwards {β γ : Type} {rank : Op → Nat} {low : Nat}
    {next : β → Prog Op Resp (Except Error γ)} :
    (∀ r, (afterwards next r).Rising rank low) ↔ ∀ value, (next value).Rising rank low := by
  constructor
  · intro h value; exact h (.ok value)
  · intro h r
    cases r with
    | ok value => exact h value
    | error e => exact risingRet

theorem everyBelongs (prim : Primitives) (c : Call) : (program prim c).Every (Belongs prim c) := by
  cases c <;> simp only [program,answer,everyMap,createUserTree,setPasswordTree,revokeUserTree,
    setEnabledTree,deleteUserTree,userTree,loginTree,ticketTree,redeemTree,revokeTree] <;>
    simp [Belongs]

/- A call that answers without an error has no failed statement behind it. -/
theorem pathAfterwards {β γ : Type} {next : β → Prog Op Resp (Except Error γ)} {r dids value}
    (path : Path (afterwards next r) dids (.ret (.ok value))) :
    ∃ b, r = .ok b ∧ Path (next b) dids (.ret (.ok value)) := by
  cases r with
  | ok b => exact ⟨b,rfl,path⟩
  | error e => cases path

theorem pathAnswer {β : Type} {f : β → Reply} {p : Fallible β} {dids reply}
    (path : Path (answer f p) dids (.ret (.ok reply))) :
    ∃ b, reply = f b ∧ Path p.run dids (.ret (.ok b)) := by
  obtain ⟨result,same,path⟩ := pathMapRet path
  cases result with
  | ok b => exact ⟨b,Except.ok.inj same,path⟩
  | error e => cases same

/- Every call executes its statements in the order in which `Op` lists them. -/
theorem statementsRise (prim : Primitives) (c : Call) : (program prim c).Rising Op.ctorIdx 0 := by
  cases c <;> simp only [program,answer,risingMap,createUserTree,setPasswordTree,revokeUserTree,
    setEnabledTree,deleteUserTree,userTree,loginTree,ticketTree,redeemTree,revokeTree] <;>
    simp [Op.ctorIdx]

/- The random strings a call mints, and all the tokens and tickets it handles. -/
def Call.minted : Call → List String
  | .login _ _ minted | .ticket _ _ minted => [minted.text]
  | _ => []

def Call.secrets : Call → List String
  | .user token | .revoke token => [token]
  | .login _ _ minted => [minted.text]
  | .ticket token _ minted => [token,minted.text]
  | .redeem k _ => [k]
  | _ => []

/- What is taken from the random generator and from SHA-256: a starting call mints
nothing that was minted before, and its secrets collide with none seen so far. -/
def Fresh (prim : Primitives) (w : World) : Act Call Nat → Prop
  | .start c => (∀ d ∈ w.calls, ∀ x ∈ c.minted, x ∉ d.minted) ∧
    ∀ d ∈ w.calls ++ [c], ∀ x ∈ c.secrets, ∀ y ∈ d.secrets, prim.digest x = prim.digest y → x = y
  | _ => True

instance (prim w a) : Decidable (Fresh prim w a) := by
  cases a <;> unfold Fresh <;> infer_instance

section Runs
variable {prim : Primitives} {ok : World → Act Call Nat → Prop} {s : Store} {w : World}

theorem eventBelongs (reach : (machine prim).Reach ok s w) {e} (member : e ∈ w.log) :
    Belongs prim e.call e.did.1 := by
  obtain ⟨t,found,same⟩ := Machine.eventTask reach e member
  have path := Machine.taskPath reach found
  have did : e.did ∈ w.didsOf e.task := didsOfMember.mpr ⟨e,member,rfl,rfl⟩
  have belongs := (everyOnPath path (everyBelongs prim t.call)).1 e.did did
  rwa [same] at belongs

theorem kindOnceEach (reach : (machine prim).Reach ok s w) {e e'} (left : e ∈ w.log) (right : e' ∈ w.log)
    (task : e.task = e'.task) (kind : e.did.1.ctorIdx = e'.did.1.ctorIdx) : e = e' :=
  Machine.sameKind (fun _ c => statementsRise prim c) reach left right task kind

variable (fresh : ∀ w a, ok w a → Fresh prim w a)
include fresh

theorem mintedOnce (reach : (machine prim).Reach ok s w) :
    w.calls.Pairwise fun d c => ∀ x ∈ c.minted, x ∉ d.minted := by
  refine Machine.callsInduction .nil (fun w c _ meets ih => ?_) reach
  exact List.pairwise_append.mpr ⟨ih,List.pairwise_singleton _ _,by simpa using (fresh _ _ meets).1⟩

theorem sameMinter (reach : (machine prim).Reach ok s w) {i j : Nat} {t u x}
    (left : w.tasks[i]? = some t) (right : w.tasks[j]? = some u)
    (here : x ∈ t.call.minted) (there : x ∈ u.call.minted) : i = j := by
  have apart := List.pairwise_iff_getElem.mp (mintedOnce fresh reach)
  obtain ⟨hi,ci⟩ := List.getElem?_eq_some_iff.mp (callAt left)
  obtain ⟨hj,cj⟩ := List.getElem?_eq_some_iff.mp (callAt right)
  rw [← ci] at here
  rw [← cj] at there
  rcases Nat.lt_trichotomy i j with less | same | more
  · exact absurd here (apart i j hi hj less x there)
  · exact same
  · exact absurd there (apart j i hj hi more x here)

theorem noCollision (reach : (machine prim).Reach ok s w) : ∀ c ∈ w.calls, ∀ d ∈ w.calls,
    ∀ x ∈ c.secrets, ∀ y ∈ d.secrets, prim.digest x = prim.digest y → x = y := by
  refine Machine.callsInduction (P := fun calls => ∀ c ∈ calls, ∀ d ∈ calls,
    ∀ x ∈ c.secrets, ∀ y ∈ d.secrets, prim.digest x = prim.digest y → x = y)
    (by simp) (fun w new _ meets ih => ?_) reach
  have apart := (fresh _ _ meets).2
  intro c left d right x hx y hy same
  rcases List.mem_append.mp left with old | last
  · rcases List.mem_append.mp right with old' | last'
    · exact ih c old d old' x hx y hy same
    · cases List.mem_singleton.mp last'
      exact (apart c (List.mem_append_left _ old) y hy x hx same.symm).symm
  · cases List.mem_singleton.mp last
    exact apart d right x hx y hy same

end Runs

/- Stand-ins for SHA-256 and bcrypt on which runs can be computed: the digest of a text is the
text, and a hash shows its salt of four characters before the password. -/
def plain : Primitives where
  digest := fun text => text.toList.map fun c => c.toNat.toUInt8
  bcryptHash := fun password salt => salt ++ password
  bcryptVerify := fun password hash => (hash.toList.drop 4) == password.toList

def minted (c : Char) (length : (String.ofList (List.replicate 64 c)).utf8ByteSize = 64) : Minted :=
  ⟨String.ofList (List.replicate 64 c),length⟩

def mintedA : Minted := minted 'a' (by decide)

def mintedB : Minted := minted 'b' (by decide)

def mintedC : Minted := minted 'c' (by decide)

end OpenuuServer.AccountCalls
