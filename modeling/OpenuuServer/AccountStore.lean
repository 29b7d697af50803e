import OpenuuServer.AtomicProgram
import OpenuuServer.UniqueTable
import Mathlib.Control.Lawful

/-! The account database and the functions of `Accounts` over it. One SQL statement is one
operation, with the clock readings bound to it. SHA-256 and bcrypt are primitives; the
random strings a call mints and the salts it draws are part of the call. -/
namespace OpenuuServer.AccountStore
open AtomicProgram UniqueTable

abbrev Bytes := List UInt8

structure Primitives where
  digest : String → Bytes
  bcryptHash : String → String → String
  bcryptVerify : String → String → Bool

/- Two simple version 4 UUIDs in a row: 64 hexadecimal digits. -/
structure Minted where
  text : String
  length : text.utf8ByteSize = 64
  deriving DecidableEq

structure Account where
  name : String
  passwordHash : String
  enabled : Bool
  deriving DecidableEq, Repr

structure Session where
  tokenHash : Bytes
  name : String
  expires : Int
  deriving DecidableEq, Repr

structure RelayTicket where
  hash : Bytes
  sessionHash : Bytes
  relayId : String
  expires : Int
  deriving DecidableEq, Repr

structure WolDevice where
  owner : String
  id : String
  seen : Int
  session : Bytes
  peers : List String
  deriving DecidableEq, Repr

structure WolJob where
  owner : String
  target : String
  helper : String
  expires : Int
  deriving DecidableEq, Repr

/- `now` is the clock of the host in whole seconds, as `now()` reads it. -/
structure Store where
  now : Int
  accounts : Table Account fun a b => a.name = b.name
  sessions : Table Session fun a b => a.tokenHash = b.tokenHash
  tickets : Table RelayTicket fun a b => a.hash = b.hash
  devices : Table WolDevice fun a b => a.owner = b.owner ∧ a.id = b.id
  jobs : Table WolJob fun a b => a.owner = b.owner ∧ a.target = b.target

def Store.init (now : Int) : Store := ⟨now,.empty,.empty,.empty,.empty,.empty⟩

/- `account_sessions s JOIN accounts a ON a.name=s.name` -/
def Store.joined (s : Store) : List (Session × Account) :=
  s.sessions.rows.flatMap fun row =>
    (s.accounts.rows.filter fun a => a.name = row.name).map fun a => (row,a)

def Store.live (s : Store) (pair : Session × Account) : Bool :=
  decide (s.now < pair.1.expires) && pair.2.enabled

def Store.liveHashes (s : Store) : List Bytes :=
  (s.joined.filter s.live).map fun pair => pair.1.tokenHash

theorem memJoined {s : Store} {row a} :
    (row,a) ∈ s.joined ↔ row ∈ s.sessions ∧ a ∈ s.accounts ∧ a.name = row.name := by
  simp only [Store.joined,List.mem_flatMap,List.mem_map,List.mem_filter,decide_eq_true_eq,
    Prod.mk.injEq,memRows]
  constructor
  · rintro ⟨row',inside,a',⟨member,same⟩,rfl,rfl⟩
    exact ⟨inside,member,same⟩
  · rintro ⟨inside,member,same⟩
    exact ⟨row,inside,a,⟨member,same⟩,rfl,rfl⟩

theorem memLiveHashes {s : Store} {h} : h ∈ s.liveHashes ↔
    ∃ row ∈ s.sessions, row.tokenHash = h ∧ s.now < row.expires ∧
      ∃ a ∈ s.accounts, a.name = row.name ∧ a.enabled = true := by
  simp only [Store.liveHashes,List.mem_map,List.mem_filter,Prod.exists,memJoined,Store.live,
    Bool.and_eq_true,decide_eq_true_eq]
  constructor
  · rintro ⟨row,a,⟨⟨inside,member,same⟩,fresh,enabled⟩,rfl⟩
    exact ⟨row,inside,rfl,fresh,a,member,same,enabled⟩
  · rintro ⟨row,inside,rfl,fresh,a,member,same,enabled⟩
    exact ⟨row,a,⟨⟨inside,member,same⟩,fresh,enabled⟩,rfl⟩

inductive DbError where
  | constraint
  | failed
  deriving DecidableEq, Repr

inductive Error where
  | database (e : DbError)
  | message (text : String)
  deriving DecidableEq, Repr

inductive Op where
  | insertAccount (name hash : String)
  | updatePassword (hash name : String)
  | updateEnabled (enabled : Bool) (name : String)
  | deleteTicketsOf (name : String)
  | deleteSessionsOf (name : String)
  | deleteJobsOf (name : String)
  | deleteDevicesOf (name : String)
  | deleteAccount (name : String)
  | selectUser (tokenHash : Bytes)
  | selectHash (name : String)
  | verify (password : String) (hash : Option String)
  | purgeSessions
  | insertSession (tokenHash : Bytes) (name : String)
  | purgeTickets
  | insertTicket (hash sessionHash : Bytes) (relayId : String)
  | redeemTicket (hash : Bytes) (relayId : String)
  | revokeSession (tokenHash : Bytes)
  deriving DecidableEq, Repr

@[reducible] def Resp : Op → Type
  | .selectUser _ | .selectHash _ => Except DbError (Option String)
  | .verify _ _ => Bool
  | .insertAccount _ _ | .insertSession _ _ | .insertTicket _ _ _ => Except DbError Unit
  | _ => Except DbError Nat

def inserted {β : Type} (s : Store) (t : Option β) (put : β → Store) : Except DbError Unit × Store :=
  match t with
  | some t => (.ok (),put t)
  | none => (.error .constraint,s)

def exec (prim : Primitives) : (o : Op) → Store → Resp o × Store
  | .insertAccount name hash,s =>
    inserted s (s.accounts.insert ⟨name,hash,true⟩) fun t => { s with accounts := t }
  | .updatePassword hash name,s =>
    (.ok (s.accounts.affected fun a => a.name = name),
      { s with accounts := s.accounts.amend (fun a => a.name = name) (fun a => { a with passwordHash := hash }) <|
          keepKey Account.name fun _ => rfl })
  | .updateEnabled enabled name,s =>
    (.ok (s.accounts.affected fun a => a.name = name),
      { s with accounts := s.accounts.amend (fun a => a.name = name) (fun a => { a with enabled := enabled }) <|
          keepKey Account.name fun _ => rfl })
  | .deleteTicketsOf name,s =>
    let owned := fun (k : RelayTicket) =>
      k.sessionHash ∈ (s.sessions.rows.filter fun row => row.name = name).map (·.tokenHash)
    (.ok (s.tickets.affected fun k => owned k),{ s with tickets := s.tickets.delete fun k => owned k })
  | .deleteSessionsOf name,s =>
    (.ok (s.sessions.affected fun row => row.name = name),
      { s with sessions := s.sessions.delete fun row => row.name = name })
  | .deleteJobsOf name,s =>
    (.ok (s.jobs.affected fun j => j.owner = name),{ s with jobs := s.jobs.delete fun j => j.owner = name })
  | .deleteDevicesOf name,s =>
    (.ok (s.devices.affected fun d => d.owner = name),
      { s with devices := s.devices.delete fun d => d.owner = name })
  | .deleteAccount name,s =>
    (.ok (s.accounts.affected fun a => a.name = name),
      { s with accounts := s.accounts.delete fun a => a.name = name })
  | .selectUser h,s =>
    (.ok ((s.joined.find? fun pair => pair.1.tokenHash = h && s.live pair).map fun pair => pair.2.name),s)
  | .selectHash name,s =>
    (.ok ((s.accounts.rows.find? fun a => a.name = name && a.enabled).map (·.passwordHash)),s)
  | .verify password hash,s =>
    (match hash with | some h => prim.bcryptVerify password h | none => false,s)
  | .purgeSessions,s =>
    (.ok (s.sessions.affected fun row => row.expires ≤ s.now),
      { s with sessions := s.sessions.delete fun row => row.expires ≤ s.now })
  | .insertSession h name,s =>
    inserted s (s.sessions.insert ⟨h,name,s.now + 86400⟩) fun t => { s with sessions := t }
  | .purgeTickets,s =>
    (.ok (s.tickets.affected fun k => k.expires ≤ s.now),
      { s with tickets := s.tickets.delete fun k => k.expires ≤ s.now })
  | .insertTicket h sessionHash relayId,s =>
    inserted s (s.tickets.insert ⟨h,sessionHash,relayId,s.now + 60⟩) fun t => { s with tickets := t }
  | .redeemTicket h relayId,s =>
    let chosen := fun (k : RelayTicket) =>
      k.hash = h ∧ k.relayId = relayId ∧ s.now < k.expires ∧ k.sessionHash ∈ s.liveHashes
    (.ok (s.tickets.affected fun k => chosen k),{ s with tickets := s.tickets.delete fun k => chosen k })
  | .revokeSession h,s =>
    (.ok (s.sessions.affected fun row => row.tokenHash = h),
      { s with sessions := s.sessions.delete fun row => row.tokenHash = h })

@[simp] theorem execNow (prim : Primitives) (o : Op) (s : Store) : (exec prim o s).2.now = s.now := by
  cases o <;> first | rfl | (simp only [exec,inserted]; split <;> rfl)

def stmt (o : Op) : Prog Op Resp (Resp o) := perform o

/- Functions that return `ResultType`: `sql` is the `?` behind a statement. -/
abbrev Fallible := ExceptT Error (Prog Op Resp)

def sql {β : Type} (p : Prog Op Resp (Except DbError β)) : Fallible β :=
  ExceptT.mk do
    match ← p with
    | .ok value => pure (.ok value)
    | .error e => pure (.error (.database e))

def bail {β : Type} (text : String) : Fallible β := throw (.message text)

section Functions
variable (prim : Primitives)

def validName (name : String) : Bool :=
  !name.isEmpty && decide (name.utf8ByteSize ≤ 64) &&
    name.toList.all fun c => c.isAlphanum || c ∈ ['.','_','-']

def hashPassword (password salt : String) : Fallible String := do
  if password.utf8ByteSize < 12 ∨ password.utf8ByteSize > 72 then
    bail "Use a 12-72 byte password"
  return prim.bcryptHash password salt

def createUser (name password salt : String) : Fallible Unit := do
  if !validName name then
    bail "Use a 1-64 character account name (letters, digits, . _ -)"
  let hash ← hashPassword prim password salt
  sql (stmt (.insertAccount name hash))

def revokeUser (name : String) : Fallible Unit := do
  let _ ← sql (stmt (.deleteTicketsOf name))
  let _ ← sql (stmt (.deleteSessionsOf name))

def noSuchAccount {β : Type} (name : String) : Fallible β := bail ("No such account: " ++ name)

def setPassword (name password salt : String) : Fallible Unit := do
  let hash ← hashPassword prim password salt
  let rows ← sql (stmt (.updatePassword hash name))
  if rows = 0 then noSuchAccount name
  revokeUser name

def setEnabled (name : String) (enabled : Bool) : Fallible Unit := do
  let rows ← sql (stmt (.updateEnabled enabled name))
  if rows = 0 then noSuchAccount name
  if !enabled then revokeUser name

def deleteUser (name : String) : Fallible Unit := do
  revokeUser name
  let _ ← sql (stmt (.deleteJobsOf name))
  let _ ← sql (stmt (.deleteDevicesOf name))
  let rows ← sql (stmt (.deleteAccount name))
  if rows = 0 then noSuchAccount name

def user (token : String) : Fallible (Option String) := do
  if token.utf8ByteSize ≠ 64 then return none
  sql (stmt (.selectUser (prim.digest token)))

def login (name password : String) (minted : Minted) : Fallible (Option String) := do
  if name.utf8ByteSize > 64 ∨ password.utf8ByteSize > 72 then return none
  let hash ← sql (stmt (.selectHash name))
  let valid : Bool ← stmt (.verify password hash)
  if !valid then return none
  let _ ← sql (stmt .purgeSessions)
  sql (stmt (.insertSession (prim.digest minted.text) name))
  return some minted.text

def ticket (token relayId : String) (minted : Minted) : Fallible (Option String) := do
  if relayId.isEmpty ∨ relayId.utf8ByteSize > 128 then return none
  if (← user prim token).isNone then return none
  let _ ← sql (stmt .purgeTickets)
  sql (stmt (.insertTicket (prim.digest minted.text) (prim.digest token) relayId))
  return some minted.text

def redeem (ticket relayId : String) : Fallible Bool := do
  if ticket.utf8ByteSize ≠ 64 then return false
  let rows ← sql (stmt (.redeemTicket (prim.digest ticket) relayId))
  return rows = 1

def revoke (token : String) : Fallible Unit := do
  let _ ← sql (stmt (.revokeSession (prim.digest token)))

end Functions

/- The same functions as trees of operations, which is what the pool executes. -/
section Trees
variable {β γ : Type}

def afterwards (next : β → Prog Op Resp (Except Error γ)) :
    Except DbError β → Prog Op Resp (Except Error γ)
  | .ok value => next value
  | .error e => .ret (.error (.database e))

@[simp] theorem stmtIs (o : Op) : stmt o = .op o .ret := rfl
@[simp] theorem runPure (value : β) : (pure value : Fallible β).run = .ret (.ok value) := rfl
@[simp] theorem pureBind (value : β) (f : β → Fallible γ) : pure value >>= f = f value := rfl
@[simp] theorem runBail (text : String) : (bail text : Fallible β).run = .ret (.error (.message text)) := rfl
@[simp] theorem bailBind (text : String) (f : β → Fallible γ) :
    (bail text >>= f).run = .ret (.error (.message text)) := rfl
@[simp] theorem runIte (c : Prop) [Decidable c] (x y : Fallible β) :
    (if c then x else y).run = if c then x.run else y.run := apply_ite _ _ _ _
@[simp] theorem bindIte (c : Prop) [Decidable c] (x y : Fallible β) (f : β → Fallible γ) :
    (if c then x else y) >>= f = if c then x >>= f else y >>= f := by split <;> rfl
@[simp] theorem liftBind (o : Op) (next : Resp o → Prog Op Resp β) (f : β → Fallible γ) :
    ((liftM (Prog.op o next) : Fallible β) >>= f).run =
      .op o fun r => ((liftM (next r) : Fallible β) >>= f).run := rfl
@[simp] theorem liftRetBind (value : β) (f : β → Fallible γ) :
    ((liftM (Prog.ret value : Prog Op Resp β) : Fallible β) >>= f).run = (f value).run := rfl

@[simp] theorem sqlRun (p : Prog Op Resp (Except DbError β)) :
    (sql p).run = p >>= afterwards fun value => .ret (.ok value) := rfl

@[simp] theorem sqlBind (p : Prog Op Resp (Except DbError β)) (f : β → Fallible γ) :
    (sql p >>= f).run = p >>= afterwards fun value => (f value).run := by
  rw [ExceptT.run_bind,sqlRun,bind_assoc]
  congr 1
  funext r
  cases r <;> rfl

variable (prim : Primitives)

theorem createUserTree (name password salt : String) : (createUser prim name password salt).run =
    if validName name = false then
      .ret (.error (.message "Use a 1-64 character account name (letters, digits, . _ -)"))
    else if password.utf8ByteSize < 12 ∨ password.utf8ByteSize > 72 then
      .ret (.error (.message "Use a 12-72 byte password"))
    else .op (.insertAccount name (prim.bcryptHash password salt)) <| afterwards fun _ => .ret (.ok ()) := by
  simp [createUser,hashPassword,-ExceptT.run_bind]

theorem revokeUserTree (name : String) : (revokeUser name).run =
    .op (.deleteTicketsOf name) (afterwards fun _ =>
    .op (.deleteSessionsOf name) <| afterwards fun _ => .ret (.ok ())) := by
  simp [revokeUser,-bind_pure_comp,-ExceptT.run_bind]

theorem setPasswordTree (name password salt : String) : (setPassword prim name password salt).run =
    if password.utf8ByteSize < 12 ∨ password.utf8ByteSize > 72 then
      .ret (.error (.message "Use a 12-72 byte password"))
    else .op (.updatePassword (prim.bcryptHash password salt) name) <| afterwards fun rows =>
      if rows = 0 then .ret (.error (.message ("No such account: " ++ name))) else (revokeUser name).run := by
  simp [setPassword,hashPassword,noSuchAccount,-bind_pure_comp,-ExceptT.run_bind]

theorem setEnabledTree (name : String) (enabled : Bool) : (setEnabled name enabled).run =
    .op (.updateEnabled enabled name) (afterwards fun rows =>
      if rows = 0 then .ret (.error (.message ("No such account: " ++ name)))
      else if enabled then .ret (.ok ()) else (revokeUser name).run) := by
  cases enabled <;> simp [setEnabled,noSuchAccount,-ExceptT.run_bind]

theorem deleteUserTree (name : String) : (deleteUser name).run =
    .op (.deleteTicketsOf name) (afterwards fun _ =>
    .op (.deleteSessionsOf name) <| afterwards fun _ =>
    .op (.deleteJobsOf name) <| afterwards fun _ =>
    .op (.deleteDevicesOf name) <| afterwards fun _ =>
    .op (.deleteAccount name) <| afterwards fun rows =>
      if rows = 0 then .ret (.error (.message ("No such account: " ++ name))) else .ret (.ok ())) := by
  simp [deleteUser,revokeUser,noSuchAccount,-bind_pure_comp,-ExceptT.run_bind]

theorem userTree (token : String) : (user prim token).run =
    if token.utf8ByteSize ≠ 64 then .ret (.ok none)
    else .op (.selectUser (prim.digest token)) <| afterwards fun name => .ret (.ok name) := by
  simp [user,-ExceptT.run_bind]

theorem loginTree (name password : String) (minted : Minted) : (login prim name password minted).run =
    if name.utf8ByteSize > 64 ∨ password.utf8ByteSize > 72 then .ret (.ok none)
    else .op (.selectHash name) <| afterwards fun hash =>
      .op (.verify password hash) fun valid =>
      if valid = false then .ret (.ok none)
      else .op .purgeSessions <| afterwards fun _ =>
        .op (.insertSession (prim.digest minted.text) name) <| afterwards fun _ =>
        .ret (.ok (some minted.text)) := by
  simp [login,-bind_pure_comp,-ExceptT.run_bind]

theorem ticketTree (token relayId : String) (minted : Minted) : (ticket prim token relayId minted).run =
    if relayId.isEmpty ∨ relayId.utf8ByteSize > 128 then .ret (.ok none)
    else if token.utf8ByteSize ≠ 64 then .ret (.ok none)
    else .op (.selectUser (prim.digest token)) <| afterwards fun name =>
      if name.isNone then .ret (.ok none)
      else .op .purgeTickets <| afterwards fun _ =>
        .op (.insertTicket (prim.digest minted.text) (prim.digest token) relayId) <| afterwards fun _ =>
        .ret (.ok (some minted.text)) := by
  simp [ticket,user,-bind_pure_comp,-ExceptT.run_bind]

theorem redeemTree (k relayId : String) : (redeem prim k relayId).run =
    if k.utf8ByteSize ≠ 64 then .ret (.ok false)
    else .op (.redeemTicket (prim.digest k) relayId) <| afterwards fun rows => .ret (.ok (rows = 1)) := by
  simp [redeem,-bind_pure_comp,-ExceptT.run_bind]

theorem revokeTree (token : String) : (revoke prim token).run =
    .op (.revokeSession (prim.digest token)) (afterwards fun _ => .ret (.ok ())) := by
  simp [revoke,-bind_pure_comp,-ExceptT.run_bind]

end Trees
end OpenuuServer.AccountStore
