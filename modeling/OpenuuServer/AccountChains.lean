import OpenuuServer.AccountCalls

/-! The operations of an administrator when statements fail. Each one is a chain of statements
outside any transaction that stops at the first error, so what an error leaves behind is
what the statements before it did. -/
namespace OpenuuServer.AccountChains
open AtomicProgram UniqueTable AccountStore AccountCalls

/- A failing statement answers with an error and has no effect. Checking a hash is not one. -/
def failing (prim : Primitives) : (o : Op) → Store → Resp o × Store
  | .verify password hash,s => exec prim (.verify password hash) s
  | .insertAccount _ _,s | .insertSession _ _,s | .insertTicket _ _ _,s => (.error .failed,s)
  | .selectUser _,s | .selectHash _,s => (.error .failed,s)
  | .updatePassword _ _,s | .updateEnabled _ _,s | .deleteTicketsOf _,s | .deleteSessionsOf _,s
  | .deleteJobsOf _,s | .deleteDevicesOf _,s | .deleteAccount _,s | .purgeSessions,s | .purgeTickets,s
  | .redeemTicket _ _,s | .revokeSession _,s => (.error .failed,s)

/- A call on its own whose n-th statement fails where `fails n` says so. -/
def attempt {α : Type} (prim : Primitives) (fails : Nat → Bool) : Prog Op Resp α → Nat → Store → α × Store
  | .ret value,_,s => (value,s)
  | .op o next,n,s =>
    let done := if fails n then failing prim o s else exec prim o s
    attempt prim fails (next done.1) (n + 1) done.2

inductive Operation where
  | setPassword (name password salt : String)
  | setEnabled (name : String) (enabled : Bool)
  | deleteUser (name : String)
  deriving DecidableEq

def operate (prim : Primitives) (fails : Nat → Bool) (s : Store) : Operation → Except Error Unit × Store
  | .setPassword name password salt => attempt prim fails (setPassword prim name password salt).run 0 s
  | .setEnabled name enabled => attempt prim fails (setEnabled name enabled).run 0 s
  | .deleteUser name => attempt prim fails (deleteUser name).run 0 s

def ErrorChangesNothing (prim : Primitives) (fails : Nat → Bool) (s : Store) (c : Operation) : Prop :=
  ∀ e, (operate prim fails s c).1 = .error e → (operate prim fails s c).2 = s

/- The statements in their order. -/
def Operation.statements (prim : Primitives) : Operation → List Op
  | .setPassword name password salt =>
    [.updatePassword (prim.bcryptHash password salt) name,.deleteTicketsOf name,.deleteSessionsOf name]
  | .setEnabled name true => [.updateEnabled true name]
  | .setEnabled name false => [.updateEnabled false name,.deleteTicketsOf name,.deleteSessionsOf name]
  | .deleteUser name => [.deleteTicketsOf name,.deleteSessionsOf name,.deleteJobsOf name,.deleteDevicesOf name,
      .deleteAccount name]

def HasAccount (s : Store) (name : String) : Prop := ∃ a ∈ s.accounts, a.name = name

/- Where the operation stops with an error though it has got to its statements: one of them
fails, or there is no account to delete. -/
def Operation.Stops (fails : Nat → Bool) (s : Store) : Operation → Prop
  | .setPassword name password _ => 12 ≤ password.utf8ByteSize ∧ password.utf8ByteSize ≤ 72 ∧
    HasAccount s name ∧ ∃ n < 3, fails n = true
  | .setEnabled name enabled => HasAccount s name ∧ ∃ n < if enabled then 1 else 3, fails n = true
  | .deleteUser name => HasAccount s name → ∃ n < 5, fails n = true

/- The rows leave the statement nothing to change. The last line is about statements that are
no part of an operation. -/
def Idle (prim : Primitives) (s : Store) : Op → Prop
  | .updatePassword hash name => ∀ a ∈ s.accounts, a.name = name → a.passwordHash = hash
  | .updateEnabled enabled name => ∀ a ∈ s.accounts, a.name = name → a.enabled = enabled
  | .deleteTicketsOf name => ∀ k ∈ s.tickets, ∀ row ∈ s.sessions, row.name = name → row.tokenHash ≠ k.sessionHash
  | .deleteSessionsOf name => ∀ row ∈ s.sessions, row.name ≠ name
  | .deleteJobsOf name => ∀ j ∈ s.jobs, j.owner ≠ name
  | .deleteDevicesOf name => ∀ d ∈ s.devices, d.owner ≠ name
  | .deleteAccount name => ∀ a ∈ s.accounts, a.name ≠ name
  | o => (exec prim o s).2 = s

/- Every statement before the first failing one is idle. -/
def Spared (prim : Primitives) (fails : Nat → Bool) (s : Store) (statements : List Op) : Prop :=
  ∀ n o, statements[n]? = some o → (∀ k ≤ n, fails k = false) → Idle prim s o

theorem idleSame {prim : Primitives} {s : Store} {o : Op} : Idle prim s o ↔ (exec prim o s).2 = s := by
  obtain ⟨now,accounts,sessions,tickets,devices,jobs⟩ := s
  cases o with
  | updatePassword hash name =>
    simp only [exec,Idle,Store.mk.injEq,amendSame,decide_eq_true_eq,true_and,and_true]
    refine forall₃_congr fun a _ _ => ⟨fun same => by rw [← same],fun same => (congrArg Account.passwordHash same).symm⟩
  | updateEnabled enabled name =>
    simp only [exec,Idle,Store.mk.injEq,amendSame,decide_eq_true_eq,true_and,and_true]
    refine forall₃_congr fun a _ _ => ⟨fun same => by rw [← same],fun same => (congrArg Account.enabled same).symm⟩
  | deleteTicketsOf name => simp [exec,Idle,deleteSame,memRows]
  | deleteSessionsOf name => simp [exec,Idle,deleteSame]
  | deleteJobsOf name => simp [exec,Idle,deleteSame]
  | deleteDevicesOf name => simp [exec,Idle,deleteSame]
  | deleteAccount name => simp [exec,Idle,deleteSame]
  | _ => exact Iff.rfl

/- The tables, and the one that a statement writes to. -/
inductive Relation where
  | accounts
  | sessions
  | tickets
  | devices
  | jobs
  deriving DecidableEq

def written : Op → Option Relation
  | .insertAccount _ _ | .updatePassword _ _ | .updateEnabled _ _ | .deleteAccount _ => some .accounts
  | .insertSession _ _ | .deleteSessionsOf _ | .purgeSessions | .revokeSession _ => some .sessions
  | .insertTicket _ _ _ | .deleteTicketsOf _ | .purgeTickets | .redeemTicket _ _ => some .tickets
  | .deleteDevicesOf _ => some .devices
  | .deleteJobsOf _ => some .jobs
  | .selectUser _ | .selectHash _ | .verify _ _ => none

def Same (s s' : Store) : Relation → Prop
  | .accounts => s.accounts = s'.accounts
  | .sessions => s.sessions = s'.sessions
  | .tickets => s.tickets = s'.tickets
  | .devices => s.devices = s'.devices
  | .jobs => s.jobs = s'.jobs

theorem sameTrans {s t u : Store} {r : Relation} (first : Same s t r) (second : Same t u r) : Same s u r := by
  cases r <;> exact Eq.trans first second

/- A statement leaves the other tables alone, -/
theorem otherSame {prim : Primitives} {o : Op} {s : Store} {r : Relation} (other : written o ≠ some r) :
    Same (exec prim o s).2 s r := by
  cases o with
  | insertAccount name hash => 
    simp only [exec,inserted]
    split <;> cases r <;> first | rfl | exact absurd rfl other
  | insertSession h name => 
    simp only [exec,inserted]
    split <;> cases r <;> first | rfl | exact absurd rfl other
  | insertTicket h sessionHash relayId => 
    simp only [exec,inserted]
    split <;> cases r <;> first | rfl | exact absurd rfl other
  | _ => cases r <;> first | rfl | exact absurd rfl other

/- and it changes nothing if it leaves its own alone. -/
theorem ownSame {prim : Primitives} {o : Op} {s : Store} (own : ∀ r ∈ written o, Same (exec prim o s).2 s r) :
    (exec prim o s).2 = s := by
  have all : ∀ r, Same (exec prim o s).2 s r := by
    intro r
    by_cases same : written o = some r
    · exact own r same
    · exact otherSame same
  have now : (exec prim o s).2.now = s.now := execNow prim o s
  cases s
  exact congr (congr (congr (congr (congr (congrArg Store.mk now) (all .accounts)) (all .sessions))
    (all .tickets)) (all .devices)) (all .jobs)

/- What the statements before the first failing one make of the store. -/
def chained (prim : Primitives) (fails : Nat → Bool) : List Op → Nat → Store → Store
  | [],_,s => s
  | o :: rest,n,s => if fails n then s else chained prim fails rest (n + 1) (exec prim o s).2

theorem chainedOther {prim : Primitives} {fails : Nat → Bool} {os : List Op} {n : Nat} {s : Store} {r : Relation}
    (other : ∀ o ∈ os, written o ≠ some r) : Same (chained prim fails os n s) s r := by
  induction os generalizing n s with
  | nil => cases r <;> rfl
  | cons o rest ih =>
    obtain ⟨here,later⟩ := List.forall_mem_cons.mp other
    rw [chained]
    split
    · cases r <;> rfl
    · exact sameTrans (ih later) (otherSame here)

theorem ranFurther {fails : Nat → Bool} {n i : Nat} (ran : fails n = false) :
    (∀ k ≤ i + 1, fails (n + k) = false) ↔ ∀ k ≤ i, fails (n + 1 + k) = false := by
  constructor
  · intro all k low
    rw [Nat.add_right_comm]
    exact all (k + 1) (by omega)
  · intro all k low
    cases k with
    | zero => exact ran
    | succ k =>
      have later := all k (by omega)
      rwa [Nat.add_right_comm] at later

/- Statements on different tables cannot undo one another: together they change nothing only
if each of them changes nothing. -/
theorem chainedSame {prim : Primitives} {fails : Nat → Bool} {os : List Op} {n : Nat} {s : Store}
    (apart : os.Pairwise fun o o' => written o' ≠ written o) : chained prim fails os n s = s ↔
      ∀ i o, os[i]? = some o → (∀ k ≤ i, fails (n + k) = false) → Idle prim s o := by
  induction os generalizing n with
  | nil => simp [chained]
  | cons o rest ih =>
    obtain ⟨here,later⟩ := List.pairwise_cons.mp apart
    by_cases failed : fails n = true
    · have none : ∀ i, ¬ ∀ k ≤ i, fails (n + k) = false := by
        intro i all
        simpa [failed] using all 0 (Nat.zero_le _)
      simp [chained,failed,none]
    · have further : ∀ i, (∀ k ≤ i + 1, fails (n + k) = false) ↔ ∀ k ≤ i, fails (n + 1 + k) = false :=
        fun i => ranFurther (by simpa using failed)
      rw [chained,if_neg failed]
      constructor
      · intro same
        have kept : (exec prim o s).2 = s := by
          refine ownSame fun r writes => ?_
          have frame : Same (chained prim fails rest (n + 1) (exec prim o s).2) (exec prim o s).2 r :=
            chainedOther fun o' inside again => here o' inside (again.trans writes.symm)
          rw [same] at frame
          cases r <;> exact Eq.symm frame
        rw [kept] at same
        intro i o' found ran
        cases i with
        | zero =>
          cases Option.some.inj found
          exact idleSame.mpr kept
        | succ i => exact (ih later).mp same i o' found ((further i).mp ran)
      · intro idle
        have kept := idleSame.mp (idle 0 o rfl (by simpa using failed))
        rw [kept]
        exact (ih later).mpr fun i o' found ran => idle (i + 1) o' found ((further i).mpr ran)

/- The program executes these statements in turn and stops at the first failing one; if none
fails, it ends with an error just where `bad` says so. -/
structure Chain (prim : Primitives) (p : Prog Op Resp (Except Error Unit)) (os : List Op) (s : Store) (bad : Prop) : Prop where
  store : ∀ fails n, (attempt prim fails p n s).2 = chained prim fails os n s
  errs : ∀ fails n, (∃ e, (attempt prim fails p n s).1 = .error e) ↔ (∃ i < os.length, fails (n + i) = true) ∨ bad

section Chains
variable {prim : Primitives} {s : Store} {name : String}

theorem chainDone : Chain prim (.ret (.ok ())) [] s False := by
  constructor <;> simp [attempt,chained]

theorem chainBailed {e : Error} : Chain prim (.ret (.error e)) [] s True := by
  constructor <;> simp [attempt,chained]

theorem failingSame (o : Op) : (failing prim o s).2 = s := by
  cases o <;> rfl

theorem chainNext {o : Op} {next : Resp o → Prog Op Resp (Except Error Unit)} {os : List Op} {bad : Prop}
    (stops : ∃ e, next (failing prim o s).1 = .ret (.error e))
    (rest : Chain prim (next (exec prim o s).1) os (exec prim o s).2 bad) :
    Chain prim (.op o next) (o :: os) s bad := by
  obtain ⟨e,stopped⟩ := stops
  constructor
  · intro fails n
    by_cases failed : fails n = true
    · simp [attempt,chained,failed,stopped,failingSame]
    · simp [attempt,chained,failed,rest.store]
  · intro fails n
    by_cases failed : fails n = true
    · refine iff_of_true ⟨e,?_⟩ (.inl ⟨0,by simp,failed⟩)
      simp [attempt,failed,stopped]
    · have shift : (∃ i < (o :: os).length, fails (n + i) = true) ↔ ∃ i < os.length, fails (n + 1 + i) = true := by
        constructor
        · rintro ⟨i,bound,hit⟩
          cases i with
          | zero => exact absurd hit failed
          | succ i => exact ⟨i,by simpa using bound,by rwa [Nat.add_right_comm]⟩
        · rintro ⟨i,bound,hit⟩
          exact ⟨i + 1,by simpa using bound,by rwa [Nat.add_right_comm] at hit⟩
      simp only [attempt,failed,Bool.false_eq_true,if_false,rest.errs,shift]

theorem affectedAccount : s.accounts.affected (fun a => a.name = name) = 0 ↔ ¬ HasAccount s name := by
  simp [affectedZero,HasAccount]

theorem revokeChain : Chain prim (revokeUser name).run [.deleteTicketsOf name,.deleteSessionsOf name] s False := by
  rw [revokeUserTree]
  exact chainNext ⟨_,rfl⟩ (chainNext ⟨_,rfl⟩ chainDone)

theorem setPasswordChain {password salt : String} (account : HasAccount s name)
    (size : ¬ (password.utf8ByteSize < 12 ∨ password.utf8ByteSize > 72)) :
    Chain prim (setPassword prim name password salt).run
      (Operation.statements prim (.setPassword name password salt)) s False := by
  have rows : s.accounts.affected (fun a => a.name = name) ≠ 0 := fun none => affectedAccount.mp none account
  rw [setPasswordTree,if_neg size]
  refine chainNext ⟨_,rfl⟩ ?_
  simp only [exec,afterwards,if_neg rows]
  exact revokeChain

theorem setEnabledChain {enabled : Bool} (account : HasAccount s name) :
    Chain prim (setEnabled name enabled).run (Operation.statements prim (.setEnabled name enabled)) s False := by
  have rows : s.accounts.affected (fun a => a.name = name) ≠ 0 := fun none => affectedAccount.mp none account
  rw [setEnabledTree]
  cases enabled with
  | true =>
    refine chainNext ⟨_,rfl⟩ ?_
    simp only [exec,afterwards,if_neg rows]
    exact chainDone
  | false =>
    refine chainNext ⟨_,rfl⟩ ?_
    simp only [exec,afterwards,if_neg rows]
    exact revokeChain

theorem deleteUserChain : Chain prim (deleteUser name).run
    (Operation.statements prim (.deleteUser name)) s (¬ HasAccount s name) := by
  rw [deleteUserTree]
  refine chainNext ⟨_,rfl⟩ (chainNext ⟨_,rfl⟩ (chainNext ⟨_,rfl⟩ (chainNext ⟨_,rfl⟩ (chainNext ⟨_,rfl⟩ ?_))))
  by_cases account : HasAccount s name
  · have rows : s.accounts.affected (fun a => a.name = name) ≠ 0 := fun none => affectedAccount.mp none account
    simp only [exec,afterwards,if_neg rows,account,not_true]
    exact chainDone
  · have rows : s.accounts.affected (fun a => a.name = name) = 0 := affectedAccount.mpr account
    simp only [exec,afterwards,if_pos rows,account,not_false_eq_true]
    exact chainBailed

theorem errorSame {p : Prog Op Resp (Except Error Unit)} {os : List Op} {bad : Prop} (chain : Chain prim p os s bad)
    (apart : os.Pairwise fun o o' => written o' ≠ written o) (fails : Nat → Bool) :
    (∀ e, (attempt prim fails p 0 s).1 = .error e → (attempt prim fails p 0 s).2 = s) ↔
      ((∃ n < os.length, fails n = true) ∨ bad → Spared prim fails s os) := by
  have spared : (attempt prim fails p 0 s).2 = s ↔ Spared prim fails s os := by
    rw [chain.store,chainedSame apart]
    simp [Spared]
  have errs := chain.errs fails 0
  simp only [Nat.zero_add] at errs
  rw [← errs,← spared,forall_exists_index]

end Chains

/- The statements of one operation are on different tables. -/
theorem statementsApart {prim : Primitives} {c : Operation} :
    (c.statements prim).Pairwise fun o o' => written o' ≠ written o := by
  cases c with
  | setPassword name password salt => simp [Operation.statements,written]
  | setEnabled name enabled => cases enabled <;> simp [Operation.statements,written]
  | deleteUser name => simp [Operation.statements,written]

/- Without an account to change there is nothing to revoke either. -/
theorem missingSame {prim : Primitives} {fails : Nat → Bool} {s : Store} {name : String}
    (missing : ¬ HasAccount s name) (password salt : String) (enabled : Bool) :
    (operate prim fails s (.setPassword name password salt)).2 = s ∧
    (operate prim fails s (.setEnabled name enabled)).2 = s := by
  have rows : s.accounts.affected (fun a => a.name = name) = 0 := affectedAccount.mpr missing
  have none : ∀ a ∈ s.accounts, a.name ≠ name := fun a inside same => missing ⟨a,inside,same⟩
  have idle : ∀ hash, (exec prim (.updatePassword hash name) s).2 = s := fun hash =>
    idleSame.mp fun a inside same => absurd same (none a inside)
  have idle' : (exec prim (.updateEnabled enabled name) s).2 = s :=
    idleSame.mp fun a inside same => absurd same (none a inside)
  constructor
  · rw [operate,setPasswordTree]
    split
    · rfl
    · by_cases failed : fails 0 = true
      · simp [attempt,failed,failing,afterwards]
      · simp only [attempt,failed,Bool.false_eq_true,if_false,idle]
        simp only [exec,afterwards,if_pos rows,attempt]
  · rw [operate,setEnabledTree]
    by_cases failed : fails 0 = true
    · simp [attempt,failed,failing,afterwards]
    · simp only [attempt,failed,Bool.false_eq_true,if_false,idle']
      simp only [exec,afterwards,if_pos rows,attempt]

/- An error leaves everything as it was if and only if no statement before the one that failed
had anything to do. -/
theorem errorsChangeNothing (prim : Primitives) (fails : Nat → Bool) (s : Store) (c : Operation) :
    ErrorChangesNothing prim fails s c ↔ (c.Stops fails s → Spared prim fails s (c.statements prim)) := by
  cases c with
  | setPassword name password salt =>
    by_cases size : password.utf8ByteSize < 12 ∨ password.utf8ByteSize > 72
    · have early : (operate prim fails s (.setPassword name password salt)).2 = s := by
        rw [operate,setPasswordTree,if_pos size]; rfl
      exact iff_of_true (fun _ _ => early) fun stops => by
        have bounds := stops.1
        have bounds' := stops.2.1
        omega
    · by_cases account : HasAccount s name
      · have chain : Chain prim (setPassword prim name password salt).run
            (Operation.statements prim (.setPassword name password salt)) s False := setPasswordChain account size
        have same := errorSame chain statementsApart fails
        have stops : Operation.Stops fails s (.setPassword name password salt) ↔ (∃ n < 3, fails n = true) ∨ False := by
          have bounds : 12 ≤ password.utf8ByteSize ∧ password.utf8ByteSize ≤ 72 := by omega
          simp only [Operation.Stops,account,bounds,true_and,or_false]
        rw [stops]
        exact same
      · exact iff_of_true (fun _ _ => (missingSame account password salt true).1) fun stops => absurd stops.2.2.1 account
  | setEnabled name enabled =>
    by_cases account : HasAccount s name
    · have chain : Chain prim (setEnabled name enabled).run (Operation.statements prim (.setEnabled name enabled)) s False :=
        setEnabledChain account
      have same := errorSame chain statementsApart fails
      have stops : Operation.Stops fails s (.setEnabled name enabled) ↔
          (∃ n < (Operation.statements prim (.setEnabled name enabled)).length, fails n = true) ∨ False := by
        cases enabled <;> simp [Operation.Stops,Operation.statements,account]
      rw [stops]
      exact same
    · exact iff_of_true (fun _ _ => (missingSame account "" "" enabled).2) fun stops => absurd stops.1 account
  | deleteUser name =>
    have chain : Chain prim (deleteUser name).run (Operation.statements prim (.deleteUser name)) s (¬ HasAccount s name) :=
      deleteUserChain
    have same := errorSame chain statementsApart fails
    have stops : Operation.Stops fails s (.deleteUser name) ↔ (∃ n < 5, fails n = true) ∨ ¬ HasAccount s name := by
      rw [Operation.Stops,imp_iff_or_not]
    rw [stops]
    exact same

def heldToken : Minted := mintedA

/- An account with a session, reached by the calls of the store. -/
def sessionActs : List (Act Call Nat) := [
  .start (.createUser "tester" "long-test-password" "salt"),.advance 0,
  .start (.login "tester" "long-test-password" heldToken),.advance 1,.advance 1,.advance 1,.advance 1]

def tokenOfNewPassword : Minted := mintedB

/- The second statement of `set_password` fails: the new password is good for a login, and the
session of the old one still admits. -/
theorem passwordChangedSessionKept : ∃ w after, (machine plain).Reach (Fresh plain) (Store.init 100) w ∧
    operate plain (fun n => n = 1) w.shared (.setPassword "tester" "another-long-password" "salt") =
      (.error (.database .failed),after) ∧
    calling plain after (.login "tester" "another-long-password" tokenOfNewPassword) =
      .ok (.minted (some tokenOfNewPassword.text)) ∧
    calling plain after (.user heldToken.text) = .ok (.name (some "tester")) ∧
    ¬ ErrorChangesNothing plain (fun n => n = 1) w.shared (.setPassword "tester" "another-long-password" "salt") := by
  obtain ⟨w,reach,shown⟩ := Machine.reachWith (Fresh plain) (fun w a => decide (Fresh plain w a))
    (fun _ _ => of_decide_eq_true) sessionActs (m := machine plain) (s := Store.init 100)
    (P := fun w =>
      let result := operate plain (fun n => n = 1) w.shared (.setPassword "tester" "another-long-password" "salt")
      decide (result.1 = .error (.database .failed)) &&
      decide (calling plain result.2 (.login "tester" "another-long-password" tokenOfNewPassword) =
        .ok (.minted (some tokenOfNewPassword.text))) &&
      decide (calling plain result.2 (.user heldToken.text) = .ok (.name (some "tester"))) &&
      decide (result.2.accounts.rows ≠ w.shared.accounts.rows)) (by decide +kernel)
  simp only [Bool.and_eq_true,decide_eq_true_eq] at shown
  obtain ⟨⟨⟨failed,login⟩,admitted⟩,changed⟩ := shown
  refine ⟨w,_,reach,Prod.ext failed rfl,login,admitted,fun nothing => ?_⟩
  exact changed (congrArg (fun s : Store => s.accounts.rows) (nothing _ failed))

end OpenuuServer.AccountChains
