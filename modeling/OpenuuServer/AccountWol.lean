import OpenuuServer.AccountCalls
import Mathlib.Data.List.Sort

/-! Wake-on-LAN over the account database: devices that poll, and wake jobs that a helper in the
same network picks up. The calls of the account store run beside them on the same tables. -/
namespace OpenuuServer.AccountWol
open AtomicProgram UniqueTable AccountStore

inductive Op where
  | account (o : AccountStore.Op)
  | clock
  | selectSeen (owner id : String)
  | selectHelpers (owner target : String)
  | upsertDevice (owner id : String) (session : Bytes) (peers : List String)
  | takeJobs (owner helper : String)
  | upsertJob (owner target helper : String)
  deriving DecidableEq

@[reducible] def Resp : Op → Type
  | .account o => AccountStore.Resp o
  | .clock => Int
  | .selectSeen _ _ => Except DbError (Option Int)
  | .selectHelpers _ _ => Except DbError (List (String × List String))
  | .upsertDevice _ _ _ _ => Except DbError Unit
  | .takeJobs _ _ => Except DbError (List (String × Int))
  | .upsertJob _ _ _ => Except DbError Nat

/- `ON d.session=s.token_hash WHERE d.owner=? AND d.id<>? AND d.seen>=? AND s.expires>? AND s.name=d.owner` -/
def Store.helpers (s : Store) (owner target : String) : List WolDevice :=
  (s.devices.rows.filter fun d => d.owner = owner ∧ d.id ≠ target ∧ s.now - 30 ≤ d.seen ∧
    ∃ row ∈ s.sessions.rows, d.session = row.tokenHash ∧ s.now < row.expires ∧ row.name = d.owner).insertionSort
      fun a b => b.seen ≤ a.seen

def exec (prim : Primitives) : (o : Op) → Store → Resp o × Store
  | .account o,s => AccountStore.exec prim o s
  | .clock,s => (s.now,s)
  | .selectSeen owner id,s =>
    (.ok ((s.devices.rows.find? fun d => d.owner = owner ∧ d.id = id).map (·.seen)),s)
  | .selectHelpers owner target,s => (.ok ((Store.helpers s owner target).map fun d => (d.id,d.peers)),s)
  | .upsertDevice owner id session peers,s =>
    (.ok (),{ s with devices := s.devices.upsert ⟨owner,id,s.now,session,peers⟩ })
  | .takeJobs owner helper,s =>
    (.ok ((s.jobs.rows.filter fun j => j.owner = owner ∧ j.helper = helper).map fun j => (j.target,j.expires)),
      { s with jobs := s.jobs.delete fun j => j.owner = owner ∧ j.helper = helper })
  | .upsertJob owner target helper,s =>
    -- a job that has not expired stays: `DO UPDATE ... WHERE wol_jobs.expires<?`
    if ∃ j ∈ s.jobs.rows, j.owner = owner ∧ j.target = target ∧ s.now ≤ j.expires then (.ok 0,s)
    else (.ok 1,{ s with jobs := s.jobs.upsert ⟨owner,target,helper,s.now + 30⟩ })

structure Refusal where
  status : Nat
  text : String
  deriving DecidableEq

abbrev Web := ExceptT Refusal (Prog Op Resp)

def unavailable : Refusal := ⟨503,"Wake service unavailable"⟩

def query {β : Type} (o : Op) (read : Resp o → Except DbError β) : Web β :=
  ExceptT.mk do
    let r ← perform o
    match read r with
    | .ok value => pure (.ok value)
    | .error _ => pure (.error unavailable)

def clock : Web Int := ExceptT.mk do
  let now ← perform .clock
  return .ok now

section Functions
variable (prim : Primitives)

def valid (id : String) : Bool :=
  !id.isEmpty && decide (id.utf8ByteSize ≤ 128) && id.toList.all fun c => c.isAlphanum || c ∈ ['.','_','-']

def embedded {α : Type} (p : Prog AccountStore.Op AccountStore.Resp α) : Prog Op Resp α :=
  p.embed .account fun _ r => r

def owner (token : String) : Web String := ExceptT.mk do
  let found ← embedded (user prim token).run
  match found with
  | .ok (some name) => return .ok name
  | .ok none => return .error ⟨401,"Login required"⟩
  | .error _ => return .error ⟨503,"Authentication unavailable"⟩

/- The clock is read for each job, and those of other targets are left out. -/
def targets (peers : List String) : List (String × Int) → Web (List String)
  | [] => return []
  | (target,expires) :: rest => do
    let now ← clock
    let more ← targets peers rest
    return if now < expires ∧ target ∈ peers then target :: more else more

def poll (token id : String) (peers : List String) : Web (List String) := do
  let name ← owner prim token
  if !valid id || decide (256 < peers.length) || peers.any fun p => !valid p then
    throw ⟨400,"Invalid device list"⟩
  else
    query (.upsertDevice name id (prim.digest token) peers) fun r => r
    let jobs ← query (.takeJobs name id) fun r => r
    targets peers jobs

def availability (name target : String) : Web (String × Option String) := do
  let row ← query (.selectSeen name target) fun r => r
  match row with
  | none => return ("unregistered",none)
  | some seen =>
    let now ← clock
    if now - 30 ≤ seen then return ("online",none)
    else
      let helpers ← query (.selectHelpers name target) fun r => r
      match helpers.find? fun h => target ∈ h.2 with
      | some (helper,_) => return ("available",some helper)
      | none => return ("no_helper",none)

def status (token target : String) : Web String := do
  let name ← owner prim token
  let (state,_) ← availability name target
  return state

def wake (token target : String) : Web String := do
  let name ← owner prim token
  let (state,helper) ← availability name target
  match helper with
  | none => throw ⟨409,state⟩
  | some helper =>
    let rows ← query (.upsertJob name target helper) fun r => r
    if rows = 0 then throw ⟨429,"Wake request already queued"⟩
    else return "queued"

end Functions

inductive Call where
  | account (c : AccountCalls.Call)
  | poll (token id : String) (peers : List String)
  | status (token target : String)
  | wake (token target : String)
  deriving DecidableEq

inductive Answer where
  | account (a : AccountCalls.Answer)
  | targets (r : Except Refusal (List String))
  | state (r : Except Refusal String)
  deriving DecidableEq

def program (prim : Primitives) : Call → Prog Op Resp Answer
  | .account c => .account <$> embedded (AccountCalls.program prim c)
  | .poll token id peers => .targets <$> (poll prim token id peers).run
  | .status token target => .state <$> (status prim token target).run
  | .wake token target => .state <$> (wake prim token target).run

abbrev World := Pool Op Resp Call Store Answer

def machine (prim : Primitives) : Machine Op Resp Call Nat Store Answer where
  program := fun _ c => program prim c
  exec := exec prim
  ready := fun _ _ => true
  env := fun seconds s => { s with now := s.now + seconds }
  kills := fun _ => false

@[simp] theorem execNow (prim : Primitives) (o : Op) (s : Store) : (exec prim o s).2.now = s.now := by
  cases o with
  | account o => exact AccountStore.execNow prim o s
  | upsertJob owner target helper => simp only [exec]; split <;> rfl
  | _ => rfl

/- The same functions as trees of operations. -/
section Trees
variable {β γ : Type}

def onward (next : β → Prog Op Resp (Except Refusal γ)) : Except Refusal β → Prog Op Resp (Except Refusal γ)
  | .ok value => next value
  | .error e => .ret (.error e)

theorem webRun (p : Web β) (f : β → Web γ) : (p >>= f).run = p.run >>= onward fun value => (f value).run := by
  rw [ExceptT.run_bind]
  congr 1
  funext r
  cases r <;> rfl

theorem queryRun (o : Op) (read : Resp o → Except DbError β) :
    (query o read).run = .op o fun r => .ret ((read r).mapError fun _ => unavailable) := by
  simp only [query,performIs,bindOp,bindRet,ExceptT.run_mk]
  congr 1
  funext r
  cases read r <;> rfl

end Trees
end OpenuuServer.AccountWol
