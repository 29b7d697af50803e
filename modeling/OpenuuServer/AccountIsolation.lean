import OpenuuServer.AccountWol
import OpenuuServer.AccountFacts
import OpenuuServer.Unwinding

/-! One account beside the others. All accounts share five tables, and the purges, the deletions
and the upserts of one account's calls run over the rows of all. -/
namespace OpenuuServer.AccountIsolation
open AtomicProgram UniqueTable AccountWol Unwinding
open AccountStore hiding Op Resp exec

structure AccountSummary where
  name : String
  enabled : Bool
  sessions : Nat
  deriving DecidableEq

/- `SELECT a.name, a.enabled, (SELECT COUNT(*) FROM account_sessions s ...) FROM accounts a ORDER BY a.name` -/
def listUsers (s : Store) : List AccountSummary :=
  (s.accounts.rows.insertionSort fun a b => a.name ≤ b.name).map fun a =>
    ⟨a.name,a.enabled,s.sessions.rows.countP fun row => row.name = a.name ∧ s.now < row.expires⟩

/- A call, or a look at the entry of an account in the list. -/
inductive Request where
  | call (c : Call)
  | entry (name : String)
  deriving DecidableEq

inductive Reply where
  | call (a : Answer)
  | entry (row : Option AccountSummary)
  deriving DecidableEq

def serve (prim : Primitives) (time : Int) : Request → Store → Reply × Store
  | .call c,s => ((program prim c).run (exec prim) { s with now := time }).map .call id
  | .entry name,s => (.entry ((listUsers { s with now := time }).find? fun row => row.name = name),{ s with now := time })

/- The random strings that a request mints. -/
def Request.minted : Request → List String
  | .call (.account c) => c.minted
  | _ => []

/- What a request is made with: the name of an account, or a token or ticket. -/
inductive Credential where
  | name (name : String)
  | secret (text : String)
  deriving DecidableEq

def Request.credential : Request → Credential
  | .entry name => .name name
  | .call (.account c) => match c with
    | .createUser name _ _ | .setPassword name _ _ | .setEnabled name _ | .deleteUser name | .login name _ _ => .name name
    | .user token | .ticket token _ _ | .revoke token => .secret token
    | .redeem k _ => .secret k
  | .call (.poll token _ _) | .call (.status token _) | .call (.wake token _) => .secret token

section Separation
variable (prim : Primitives) (o : String) (mine : List String)

/- The digest of a token or ticket of the account. -/
def Mine (h : Bytes) : Prop := ∃ x ∈ mine, prim.digest x = h

/- The digest of a string minted before. -/
def Old (past : List Request) (h : Bytes) : Prop := ∃ c ∈ past, ∃ x ∈ c.minted, prim.digest x = h

def Credential.Of : Credential → Prop
  | .name owner => owner = o
  | .secret x => x ∈ mine

def Credential.Other : Credential → Prop
  | .name owner => owner ≠ o
  | .secret x => ¬ Mine prim mine (prim.digest x)

/- The requests of the account: its administration, its password and its tokens and tickets. -/
def Own (c : Request) : Prop := c.credential.Of o mine ∧ ∀ x ∈ c.minted, x ∈ mine

/- A login without the right password. -/
def Refused (s : Store) (x : Step Int Request) : Prop :=
  match x.req with
  | .call (.account (.login _ _ _)) => (serve prim x.time x.req s).1 = .call (.account (.ok (.minted none)))
  | _ => False

/- The requests of others, who do not know any token or ticket of the account. -/
def Foreign (s : Store) (x : Step Int Request) : Prop :=
  (x.req.credential.Other prim o mine ∨ Refused prim s x) ∧ ∀ y ∈ x.req.minted, ¬ Mine prim mine (prim.digest y)

/- No two strings that are minted have one digest. -/
structure Admitted (past : List Request) (s : Store) (x : Step Int Request) : Prop where
  fresh : ∀ y ∈ x.req.minted, ¬ Old prim past (prim.digest y)
  own : x.own = true → Own o mine x.req
  foreign : x.own = false → Foreign prim o mine s x

instance mineDecidable (h) : Decidable (Mine prim mine h) := inferInstanceAs (Decidable (∃ x ∈ mine, prim.digest x = h))

instance oldDecidable (past h) : Decidable (Old prim past h) :=
  inferInstanceAs (Decidable (∃ c ∈ past, ∃ x ∈ c.minted, prim.digest x = h))

instance ofDecidable : (c : Credential) → Decidable (c.Of o mine)
  | .name name => inferInstanceAs (Decidable (name = o))
  | .secret x => inferInstanceAs (Decidable (x ∈ mine))

instance otherDecidable : (c : Credential) → Decidable (c.Other prim o mine)
  | .name name => inferInstanceAs (Decidable (name ≠ o))
  | .secret x => inferInstanceAs (Decidable (¬ Mine prim mine (prim.digest x)))

instance refusedDecidable (s : Store) (x : Step Int Request) : Decidable (Refused prim s x) := by
  unfold Refused
  split <;> infer_instance

instance admittedDecidable (past : List Request) (s : Store) (x : Step Int Request) :
    Decidable (Admitted prim o mine past s x) :=
  decidable_of_iff ((∀ y ∈ x.req.minted, ¬ Old prim past (prim.digest y)) ∧
      (x.own = true → x.req.credential.Of o mine ∧ ∀ y ∈ x.req.minted, y ∈ mine) ∧
      (x.own = false → (x.req.credential.Other prim o mine ∨ Refused prim s x) ∧
        ∀ y ∈ x.req.minted, ¬ Mine prim mine (prim.digest y)))
    ⟨fun h => ⟨h.1,h.2.1,h.2.2⟩,fun h => ⟨h.fresh,h.own,h.foreign⟩⟩

/- Rows and secrets of the account belong together, and nothing in the tables is younger than
what was minted. -/
structure Kept (past : List Request) (s : Store) : Prop where
  sessions : ∀ row ∈ s.sessions, (row.name = o ↔ Mine prim mine row.tokenHash) ∧ Old prim past row.tokenHash
  tickets : ∀ k ∈ s.tickets, (Mine prim mine k.hash ↔ Mine prim mine k.sessionHash) ∧ Old prim past k.hash ∧
    (Mine prim mine k.sessionHash → Old prim past k.sessionHash)

/- The session of the ticket belongs to the account and has time left. -/
def Held (time : Int) (s : Store) (k : RelayTicket) : Prop :=
  ∃ row ∈ s.sessions, row.name = o ∧ time < row.expires ∧ row.tokenHash = k.sessionHash

/- What the account can still see of the tables: expired rows may be gone in one and not in the
other, and so may the tickets of sessions that have expired. -/
structure Same (time : Int) (s s' : Store) : Prop where
  accounts : ∀ a, a.name = o → (a ∈ s.accounts ↔ a ∈ s'.accounts)
  sessions : ∀ row, row.name = o → time < row.expires → (row ∈ s.sessions ↔ row ∈ s'.sessions)
  tickets : ∀ k, time < k.expires → Held o time s k → (k ∈ s.tickets ↔ k ∈ s'.tickets)
  devices : (s.devices.rows.filter fun d => d.owner = o) = s'.devices.rows.filter fun d => d.owner = o
  jobs : (s.jobs.rows.filter fun j => j.owner = o) = s'.jobs.rows.filter fun j => j.owner = o

def Alike (past : List Request) (time : Int) (s s' : Store) : Prop :=
  Same o time s s' ∧ Kept prim o mine past s ∧ Kept prim o mine past s'

end Separation

section Tables
variable {o : String} {time : Int} {s s' s'' : Store} {k : RelayTicket}

theorem heldSame (same : Same o time s s') : Held o time s k ↔ Held o time s' k := by
  constructor
  · rintro ⟨row,inside,owned,alive,hash⟩
    exact ⟨row,(same.sessions row owned alive).mp inside,owned,alive,hash⟩
  · rintro ⟨row,inside,owned,alive,hash⟩
    exact ⟨row,(same.sessions row owned alive).mpr inside,owned,alive,hash⟩

theorem sameRefl : Same o time s s := ⟨fun _ _ => Iff.rfl,fun _ _ _ => Iff.rfl,fun _ _ _ => Iff.rfl,rfl,rfl⟩

theorem sameSymm (same : Same o time s s') : Same o time s' s where
  accounts := fun a owned => (same.accounts a owned).symm
  sessions := fun row owned alive => (same.sessions row owned alive).symm
  tickets := fun k alive held => (same.tickets k alive ((heldSame same).mpr held)).symm
  devices := same.devices.symm
  jobs := same.jobs.symm

theorem sameTrans (first : Same o time s s') (second : Same o time s' s'') : Same o time s s'' where
  accounts := fun a owned => (first.accounts a owned).trans (second.accounts a owned)
  sessions := fun row owned alive => (first.sessions row owned alive).trans (second.sessions row owned alive)
  tickets := fun k alive held => (first.tickets k alive held).trans (second.tickets k alive ((heldSame first).mp held))
  devices := first.devices.trans second.devices
  jobs := first.jobs.trans second.jobs

theorem sameLater {later : Int} (order : time ≤ later) (same : Same o time s s') : Same o later s s' where
  accounts := same.accounts
  sessions := fun row owned alive => same.sessions row owned (Int.lt_of_le_of_lt order alive)
  tickets := fun k alive held => by
    obtain ⟨row,inside,owned,open',hash⟩ := held
    exact same.tickets k (Int.lt_of_le_of_lt order alive) ⟨row,inside,owned,Int.lt_of_le_of_lt order open',hash⟩
  devices := same.devices
  jobs := same.jobs

theorem oldMono {prim : Primitives} {past later : List Request} (more : past ⊆ later) {h} (old : Old prim past h) :
    Old prim later h := by
  obtain ⟨c,inside,rest⟩ := old
  exact ⟨c,more inside,rest⟩

theorem keptMono {prim : Primitives} {mine : List String} {past later : List Request} (more : past ⊆ later)
    (kept : Kept prim o mine past s) : Kept prim o mine later s where
  sessions := fun row inside => ⟨(kept.sessions row inside).1,oldMono more (kept.sessions row inside).2⟩
  tickets := fun k inside => by
    obtain ⟨paired,old,older⟩ := kept.tickets k inside
    exact ⟨paired,oldMono more old,fun owned => oldMono more (older owned)⟩

end Tables

section Statements
variable {prim : Primitives} {o : String} {mine : List String} {past : List Request}

theorem deleteApart {ρ : Type} {clash : ρ → ρ → Prop} {t : Table ρ clash} {p : ρ → Bool} {a : ρ} (spared : a ∈ t → p a = false) :
    a ∈ t.delete p ↔ a ∈ t := by
  rw [memDelete]
  exact ⟨fun h => h.1,fun inside => ⟨inside,spared inside⟩⟩

theorem filterDelete {ρ : Type} {clash : ρ → ρ → Prop} {t : Table ρ clash} {p q : ρ → Bool}
    (spared : ∀ a, q a = true → p a = false) : (t.delete p).rows.filter q = t.rows.filter q := by
  rw [Table.delete,List.filter_filter]
  refine List.filter_congr fun a _ => ?_
  cases chosen : q a with
  | true => simp [spared a chosen]
  | false => rfl

theorem insertApart {ρ : Type} {clash : ρ → ρ → Prop} [DecidableRel clash] {t t' : Table ρ clash} {r a : ρ}
    (added : t.insert r = some t') (other : a ≠ r) : a ∈ t' ↔ a ∈ t := by
  rw [memInsert added]
  exact ⟨fun h => h.resolve_right other,.inl⟩

theorem amendApart {name : String} (other : name ≠ o) {t : Table Account fun a b => a.name = b.name}
    {f : Account → Account} (same : ∀ a, (f a).name = a.name) {a : Account} (owned : a.name = o) :
    a ∈ t.amend (fun a => a.name = name) f (keepKey Account.name same) ↔ a ∈ t := by
  rw [memAmend]
  constructor
  · rintro ⟨r,inside,rfl⟩
    by_cases hit : r.name = name
    · simp only [hit,decide_true,if_pos] at owned
      exact absurd ((hit.symm.trans (same r).symm).trans owned) other
    · simpa only [hit,decide_false,Bool.false_eq_true,if_false] using inside
  · intro inside
    refine ⟨a,inside,if_neg ?_⟩
    simp only [decide_eq_true_eq]
    rintro rfl
    exact other owned

variable (prim o mine) in
/- The statements of requests of others. -/
def Apart (later : List Request) : AccountStore.Op → Prop
  | .insertAccount name _ | .updatePassword _ name | .updateEnabled _ name | .deleteTicketsOf name
  | .deleteSessionsOf name | .deleteJobsOf name | .deleteDevicesOf name | .deleteAccount name => name ≠ o
  | .insertSession h name => name ≠ o ∧ ¬ Mine prim mine h ∧ Old prim later h
  | .insertTicket h sessionHash _ => ¬ Mine prim mine h ∧ ¬ Mine prim mine sessionHash ∧ Old prim later h
  | .redeemTicket h _ | .revokeSession h => ¬ Mine prim mine h
  | .selectUser _ | .selectHash _ | .verify _ _ | .purgeSessions | .purgeTickets => True

/- They leave alone what the account can see. -/
theorem apartSame {s : Store} (kept : Kept prim o mine past s) {op : AccountStore.Op}
    (apart : Apart prim o mine past op) :
    Same o s.now (AccountStore.exec prim op s).2 s := by
  have same : Same o s.now s s := sameRefl
  cases op with
  | insertAccount name hash =>
    simp only [AccountStore.exec,inserted]
    split
    · rename_i t added
      refine { same with accounts := fun a owned => (memInsert added).trans ?_ }
      constructor
      · rintro (inside | rfl)
        · exact inside
        · exact absurd owned apart
      · exact .inl
    · exact sameRefl
  | updatePassword hash name =>
    exact { same with
      accounts := fun a owned => amendApart apart (f := fun a => { a with passwordHash := hash }) (fun _ => rfl) owned }
  | updateEnabled enabled name =>
    exact { same with
      accounts := fun a owned => amendApart apart (f := fun a => { a with enabled := enabled }) (fun _ => rfl) owned }
  | deleteAccount name =>
    exact { same with accounts := fun a owned => deleteApart fun _ => decide_eq_false fun hit => apart (hit.symm.trans owned) }
  | deleteSessionsOf name =>
    exact { same with
      sessions := fun row owned _ => deleteApart fun _ => decide_eq_false fun hit => apart (hit.symm.trans owned)
      tickets := fun _ _ _ => Iff.rfl }
  | revokeSession h =>
    exact { same with
      sessions := fun row owned _ => deleteApart fun inside => decide_eq_false fun hit =>
        apart (hit ▸ (kept.sessions row inside).1.mp owned)
      tickets := fun _ _ _ => Iff.rfl }
  | purgeSessions =>
    exact { same with
      sessions := fun row _ alive => deleteApart fun _ => decide_eq_false (Int.not_le.mpr alive)
      tickets := fun _ _ _ => Iff.rfl }
  | insertSession h name =>
    simp only [AccountStore.exec,inserted]
    split
    · rename_i t added
      refine { same with sessions := fun row owned _ => insertApart added ?_, tickets := fun _ _ _ => Iff.rfl }
      rintro rfl
      exact apart.1 owned
    · exact sameRefl
  | deleteTicketsOf name =>
    refine { same with tickets := fun k _ held => deleteApart fun _ => decide_eq_false fun hit => ?_ }
    obtain ⟨row,inside,owned,_,hash⟩ := held
    obtain ⟨row',chosen,hash'⟩ := List.mem_map.mp hit
    obtain ⟨inside',owned'⟩ := List.mem_filter.mp chosen
    have one : row = row' := sameRow (fun _ _ => Eq.symm) inside inside' (hash.trans hash'.symm)
    subst one
    exact apart ((of_decide_eq_true owned').symm.trans owned)
  | insertTicket h sessionHash relayId =>
    simp only [AccountStore.exec,inserted]
    split
    · rename_i t added
      refine { same with tickets := fun k _ held => insertApart added ?_ }
      rintro rfl
      obtain ⟨row,inside,owned,_,hash⟩ := held
      have paired := (kept.sessions row inside).1.mp owned
      rw [hash] at paired
      exact apart.2.1 paired
    · exact sameRefl
  | redeemTicket h relayId =>
    refine { same with tickets := fun k _ held => deleteApart fun there => decide_eq_false fun hit => ?_ }
    obtain ⟨row,inside,owned,_,hash⟩ := held
    have paired : Mine prim mine k.sessionHash := hash ▸ (kept.sessions row inside).1.mp owned
    exact apart (hit.1 ▸ (kept.tickets k there).1.mpr paired)
  | purgeTickets =>
    exact { same with tickets := fun k alive _ => deleteApart fun _ => decide_eq_false (Int.not_le.mpr alive) }
  | deleteDevicesOf name =>
    refine { same with devices := filterDelete fun d owned => decide_eq_false fun hit => ?_ }
    exact apart (hit.symm.trans (of_decide_eq_true owned))
  | deleteJobsOf name =>
    refine { same with jobs := filterDelete fun j owned => decide_eq_false fun hit => ?_ }
    exact apart (hit.symm.trans (of_decide_eq_true owned))
  | selectUser h => exact sameRefl
  | selectHash name => exact sameRefl
  | verify password hash => exact sameRefl

variable (prim o mine) in
/- A row that a statement inserts belongs to the account on both sides or on none. -/
def Paired (later : List Request) : AccountStore.Op → Prop
  | .insertSession h name => (name = o ↔ Mine prim mine h) ∧ Old prim later h
  | .insertTicket h sessionHash _ => (Mine prim mine h ↔ Mine prim mine sessionHash) ∧ Old prim later h ∧
    (Mine prim mine sessionHash → Old prim later sessionHash)
  | _ => True

theorem keptAfter {s : Store} (kept : Kept prim o mine past s) {op : AccountStore.Op}
    (paired : Paired prim o mine past op) :
    Kept prim o mine past (AccountStore.exec prim op s).2 := by
  cases op with
  | insertSession h name =>
    simp only [AccountStore.exec,inserted]
    split
    · rename_i t added
      refine { kept with sessions := fun row inside => ?_ }
      rcases (memInsert added).mp inside with old | rfl
      · exact kept.sessions row old
      · exact paired
    · exact kept
  | insertTicket h sessionHash relayId =>
    simp only [AccountStore.exec,inserted]
    split
    · rename_i t added
      refine { kept with tickets := fun k inside => ?_ }
      rcases (memInsert added).mp inside with old | rfl
      · exact kept.tickets k old
      · exact paired
    · exact kept
  | insertAccount name hash =>
    simp only [AccountStore.exec,inserted]
    split
    · exact { kept with }
    · exact kept
  | deleteSessionsOf name | purgeSessions | revokeSession h =>
    exact { kept with sessions := fun row inside => kept.sessions row (memDelete.mp inside).1 }
  | deleteTicketsOf name | purgeTickets | redeemTicket h relayId =>
    exact { kept with tickets := fun k inside => kept.tickets k (memDelete.mp inside).1 }
  | _ => exact { kept with }

theorem apartPaired {op : AccountStore.Op} (apart : Apart prim o mine past op) :
    Paired prim o mine past op := by
  cases op with
  | insertSession h name => exact ⟨⟨fun owned => absurd owned apart.1,fun owned => absurd owned apart.2.1⟩,apart.2.2⟩
  | insertTicket h sessionHash relayId =>
    exact ⟨⟨fun owned => absurd owned apart.1,fun owned => absurd owned apart.2.1⟩,apart.2.2,
      fun owned => absurd owned apart.2.1⟩
  | _ => trivial

variable (prim o mine past) in
/- The statements of requests of the account itself. -/
def Owned : AccountStore.Op → Prop
  | .insertAccount name _ | .updatePassword _ name | .updateEnabled _ name | .deleteTicketsOf name
  | .deleteSessionsOf name | .deleteJobsOf name | .deleteDevicesOf name | .deleteAccount name
  | .selectHash name => name = o
  | .insertSession h name => name = o ∧ Mine prim mine h ∧ ¬ Old prim past h
  | .insertTicket h sessionHash _ => Mine prim mine h ∧ Mine prim mine sessionHash ∧ ¬ Old prim past h
  | .selectUser h | .redeemTicket h _ | .revokeSession h => Mine prim mine h
  | .verify _ _ | .purgeSessions | .purgeTickets => True

section Tables
variable {ρ : Type} {clash : ρ → ρ → Prop} {t t' : Table ρ clash} {p p' : ρ → Bool}

theorem affectedAgree (reflexive : ∀ a, clash a a) (agree : ∀ a, (a ∈ t ∧ p a = true) ↔ (a ∈ t' ∧ p' a = true)) :
    t.affected p = t'.affected p' := by
  have apart : ∀ u : Table ρ clash, u.rows.Nodup := by
    refine fun u => List.Pairwise.imp (fun {a b} different => ?_) u.unique
    rintro rfl
    exact different (reflexive a)
  have same : (t.rows.filter p).Perm (t'.rows.filter p') := by
    rw [List.perm_ext_iff_of_nodup ((apart t).filter p) ((apart t').filter p')]
    intro a
    simp only [List.mem_filter]
    exact agree a
  simp only [Table.affected,List.countP_eq_length_filter]
  exact same.length_eq

/- What only one row can be is found wherever it is. -/
theorem findList {l l' : List ρ} (one : ∀ a ∈ l, ∀ b ∈ l, p a = true → p b = true → a = b)
    (one' : ∀ a ∈ l', ∀ b ∈ l', p a = true → p b = true → a = b) (agree : ∀ a, p a = true → (a ∈ l ↔ a ∈ l')) :
    l.find? p = l'.find? p := by
  have found : ∀ u : List ρ, (∀ a ∈ u, ∀ b ∈ u, p a = true → p b = true → a = b) →
      ∀ a, u.find? p = some a ↔ a ∈ u ∧ p a = true := by
    intro u one a
    constructor
    · intro hit
      exact ⟨List.mem_of_find?_eq_some hit,List.find?_some hit⟩
    · rintro ⟨inside,chosen⟩
      cases hit : u.find? p with
      | none => exact absurd chosen (List.find?_eq_none.mp hit a inside)
      | some b => exact congrArg some (one b (List.mem_of_find?_eq_some hit) a inside (List.find?_some hit) chosen)
  refine Option.ext fun a => ?_
  rw [found l one,found l' one']
  constructor
  · rintro ⟨inside,chosen⟩
    exact ⟨(agree a chosen).mp inside,chosen⟩
  · rintro ⟨inside,chosen⟩
    exact ⟨(agree a chosen).mpr inside,chosen⟩

theorem findAgree (symmetric : ∀ a b, clash a b → clash b a) (one : ∀ a b, p a = true → p b = true → clash a b)
    (agree : ∀ a, p a = true → (a ∈ t ↔ a ∈ t')) : t.rows.find? p = t'.rows.find? p :=
  findList (fun a left b right first second => sameRow symmetric left right (one a b first second))
    (fun a left b right first second => sameRow symmetric left right (one a b first second)) agree

theorem deleteBoth {a : ρ} (agree : a ∈ t ↔ a ∈ t') (same : a ∈ t → p a = p' a) : a ∈ t.delete p ↔ a ∈ t'.delete p' := by
  rw [memDelete,memDelete,agree]
  constructor
  · rintro ⟨inside,spared⟩
    exact ⟨inside,by rw [← same (agree.mpr inside)]; exact spared⟩
  · rintro ⟨inside,spared⟩
    exact ⟨inside,by rw [same (agree.mpr inside)]; exact spared⟩

theorem filterBoth {q : ρ → Bool} (same : t.rows.filter q = t'.rows.filter q) :
    (t.delete p).rows.filter q = (t'.delete p).rows.filter q := by
  simp only [Table.delete]
  rw [List.filter_comm,same,List.filter_comm]

theorem insertFresh [DecidableRel clash] {r : ρ} (fresh : ∀ a ∈ t, ¬ clash a r) : ∃ u, t.insert r = some u :=
  Option.isSome_iff_exists.mp (insertIsSome.mpr fresh)

end Tables

variable {s s' : Store}

/- An account is there in both or in none, and only one of its name. -/
theorem accountAffected (same : Same o s.now s s') :
    (s.accounts.affected fun a => a.name = o) = s'.accounts.affected fun a => a.name = o :=
  affectedAgree (fun _ => rfl) fun a => by
    constructor
    · rintro ⟨inside,hit⟩
      exact ⟨(same.accounts a (of_decide_eq_true hit)).mp inside,hit⟩
    · rintro ⟨inside,hit⟩
      exact ⟨(same.accounts a (of_decide_eq_true hit)).mpr inside,hit⟩

/- The owner of a token of the account is the account. -/
theorem ownerSame (kept : Kept prim o mine past s) (kept' : Kept prim o mine past s') (clock : s'.now = s.now)
    (same : Same o s.now s s') {h : Bytes} (owned : Mine prim mine h) :
    (AccountStore.exec prim (.selectUser h) s).1 = (AccountStore.exec prim (.selectUser h) s').1 := by
  refine congrArg Except.ok (Option.ext fun name => ?_)
  rw [AccountFacts.selectUserIs,AccountFacts.selectUserIs,clock]
  constructor
  · rintro ⟨row,inside,hash,rfl,alive,a,member,named,enabled⟩
    have mine := (kept.sessions row inside).1.mpr (hash ▸ owned)
    exact ⟨row,(same.sessions row mine alive).mp inside,hash,rfl,alive,a,
      (same.accounts a (named.trans mine)).mp member,named,enabled⟩
  · rintro ⟨row,inside,hash,rfl,alive,a,member,named,enabled⟩
    have mine := (kept'.sessions row inside).1.mpr (hash ▸ owned)
    exact ⟨row,(same.sessions row mine alive).mpr inside,hash,rfl,alive,a,
      (same.accounts a (named.trans mine)).mpr member,named,enabled⟩

theorem ownerIs (kept : Kept prim o mine past s) {h : Bytes} {name : String}
    (found : (AccountStore.exec prim (.selectUser h) s).1 = .ok (some name)) : name = o ↔ Mine prim mine h := by
  obtain ⟨row,inside,rfl,rfl,_⟩ := AccountFacts.selectUserIs.mp (Except.ok.inj found)
  exact (kept.sessions row inside).1

theorem ownerOld (kept : Kept prim o mine past s) {h : Bytes} {name : String}
    (found : (AccountStore.exec prim (.selectUser h) s).1 = .ok (some name)) : Old prim past h := by
  obtain ⟨row,inside,rfl,_⟩ := AccountFacts.selectUserIs.mp (Except.ok.inj found)
  exact (kept.sessions row inside).2

theorem accountInsert (same : Same o s.now s s') (hash : String) :
    (s.accounts.insert ⟨o,hash,true⟩).isSome = (s'.accounts.insert ⟨o,hash,true⟩).isSome := by
  rw [Bool.eq_iff_iff,insertIsSome,insertIsSome]
  constructor
  · intro fresh a inside named
    exact fresh a ((same.accounts a named).mpr inside) named
  · intro fresh a inside named
    exact fresh a ((same.accounts a named).mp inside) named

theorem amendBoth {t t' : Table Account fun a b => a.name = b.name} (agree : ∀ a, a.name = o → (a ∈ t ↔ a ∈ t'))
    {f : Account → Account} (keeps : ∀ a, (f a).name = a.name) {a : Account} (named : a.name = o) :
    a ∈ t.amend (fun a => a.name = o) f (keepKey Account.name keeps) ↔
      a ∈ t'.amend (fun a => a.name = o) f (keepKey Account.name keeps) := by
  have owner : ∀ r : Account, (if decide (r.name = o) = true then f r else r) = a → r.name = o := by
    rintro r rfl
    split at named
    · exact (keeps r).symm.trans named
    · exact named
  rw [memAmend,memAmend]
  constructor
  · rintro ⟨r,inside,hit⟩
    exact ⟨r,(agree r (owner r hit)).mp inside,hit⟩
  · rintro ⟨r,inside,hit⟩
    exact ⟨r,(agree r (owner r hit)).mpr inside,hit⟩

theorem sessionFresh (kept : Kept prim o mine past s) {h : Bytes} (fresh : ¬ Old prim past h) (name : String) (expires : Int) :
    ∃ t, s.sessions.insert ⟨h,name,expires⟩ = some t := by
  refine insertFresh fun row inside hit => fresh ?_
  have hit : row.tokenHash = h := hit
  exact hit ▸ (kept.sessions row inside).2

theorem ticketFresh (kept : Kept prim o mine past s) {h : Bytes} (fresh : ¬ Old prim past h) (sessionHash : Bytes)
    (relayId : String) (expires : Int) : ∃ t, s.tickets.insert ⟨h,sessionHash,relayId,expires⟩ = some t := by
  refine insertFresh fun k inside hit => fresh ?_
  have hit : k.hash = h := hit
  exact hit ▸ (kept.tickets k inside).2.1

theorem liveSame (kept : Kept prim o mine past s) (kept' : Kept prim o mine past s') (clock : s'.now = s.now)
    (same : Same o s.now s s') {h : Bytes} (owned : Mine prim mine h) : h ∈ s.liveHashes ↔ h ∈ s'.liveHashes := by
  rw [memLiveHashes,memLiveHashes,clock]
  constructor
  · rintro ⟨row,inside,rfl,alive,a,member,named,enabled⟩
    have mine := (kept.sessions row inside).1.mpr owned
    exact ⟨row,(same.sessions row mine alive).mp inside,rfl,alive,a,(same.accounts a (named.trans mine)).mp member,named,enabled⟩
  · rintro ⟨row,inside,rfl,alive,a,member,named,enabled⟩
    have mine := (kept'.sessions row inside).1.mpr owned
    exact ⟨row,(same.sessions row mine alive).mpr inside,rfl,alive,a,(same.accounts a (named.trans mine)).mpr member,
      named,enabled⟩

theorem heldMine (kept : Kept prim o mine past s) {time : Int} {k : RelayTicket} (held : Held o time s k) :
    Mine prim mine k.sessionHash := by
  obtain ⟨row,inside,named,_,hash⟩ := held
  exact hash ▸ (kept.sessions row inside).1.mp named

theorem ownedSame (kept : Kept prim o mine past s) (kept' : Kept prim o mine past s') (clock : s'.now = s.now)
    (same : Same o s.now s s') {op : AccountStore.Op} (owned : Owned prim o mine past op) :
    Same o s.now (AccountStore.exec prim op s).2 (AccountStore.exec prim op s').2 := by
  cases op with
  | insertAccount name hash =>
    cases owned
    have both := accountInsert same hash
    simp only [AccountStore.exec,inserted]
    cases first : s.accounts.insert ⟨o,hash,true⟩ with
    | none =>
      rw [first] at both
      have second : s'.accounts.insert ⟨o,hash,true⟩ = none := Option.isSome_eq_false_iff.mp both.symm |> Option.isNone_iff_eq_none.mp
      rw [second]
      exact same
    | some t =>
      rw [first] at both
      obtain ⟨t',second⟩ := Option.isSome_iff_exists.mp both.symm
      rw [second]
      refine { same with accounts := fun a named => ?_ }
      rw [memInsert first,memInsert second,same.accounts a named]
  | updatePassword hash name =>
    cases owned
    exact { same with
      accounts := fun a named => amendBoth same.accounts (f := fun a => { a with passwordHash := hash }) (fun _ => rfl) named }
  | updateEnabled enabled name =>
    cases owned
    exact { same with
      accounts := fun a named => amendBoth same.accounts (f := fun a => { a with enabled := enabled }) (fun _ => rfl) named }
  | deleteAccount name => exact { same with accounts := fun a named => deleteBoth (same.accounts a named) fun _ => rfl }
  | deleteSessionsOf name =>
    cases owned
    exact { same with
      sessions := fun row named alive => deleteBoth (same.sessions row named alive) fun _ => rfl
      tickets := fun k _ held => by
        obtain ⟨row,inside,named,_⟩ := held
        exact absurd named (of_decide_eq_false (memDelete.mp inside).2) }
  | revokeSession h =>
    exact { same with
      sessions := fun row named alive => deleteBoth (same.sessions row named alive) fun _ => rfl
      tickets := fun k alive held => by
        obtain ⟨row,inside,rest⟩ := held
        exact same.tickets k alive ⟨row,(memDelete.mp inside).1,rest⟩ }
  | purgeSessions =>
    exact { same with
      sessions := fun row named alive => deleteBoth (same.sessions row named alive) fun _ => by rw [clock]
      tickets := fun k alive held => by
        obtain ⟨row,inside,rest⟩ := held
        exact same.tickets k alive ⟨row,(memDelete.mp inside).1,rest⟩ }
  | insertSession h name =>
    obtain ⟨named,owns,fresh⟩ := owned
    obtain ⟨t,first⟩ := sessionFresh kept fresh name (s.now + 86400)
    obtain ⟨t',second⟩ := sessionFresh kept' fresh name (s.now + 86400)
    simp only [AccountStore.exec,inserted,clock,first,second]
    refine { same with sessions := fun row named alive => ?_, tickets := fun k alive held => ?_ }
    · rw [memInsert first,memInsert second,same.sessions row named alive]
    · obtain ⟨row,inside,rest⟩ := held
      rcases (memInsert first).mp inside with old | rfl
      · exact same.tickets k alive ⟨row,old,rest⟩
      · -- a new session has no tickets yet
        have hash : h = k.sessionHash := rest.2.2
        exact ⟨fun there => absurd (hash ▸ (kept.tickets k there).2.2 (hash ▸ owns)) fresh,
          fun there => absurd (hash ▸ (kept'.tickets k there).2.2 (hash ▸ owns)) fresh⟩
  | deleteTicketsOf name =>
    cases owned
    refine { same with tickets := fun k alive held => ?_ }
    have owns : ∀ u : Store, Held o s.now u k → k.sessionHash ∈
        (u.sessions.rows.filter fun row => row.name = o).map (·.tokenHash) := by
      rintro u ⟨row,inside,named,_,hash⟩
      exact List.mem_map.mpr ⟨row,List.mem_filter.mpr ⟨inside,decide_eq_true named⟩,hash⟩
    exact deleteBoth (same.tickets k alive held) fun _ =>
      (decide_eq_true (owns s held)).trans (decide_eq_true (owns s' ((heldSame same).mp held))).symm
  | insertTicket h sessionHash relayId =>
    obtain ⟨_,_,fresh⟩ := owned
    obtain ⟨t,first⟩ := ticketFresh kept fresh sessionHash relayId (s.now + 60)
    obtain ⟨t',second⟩ := ticketFresh kept' fresh sessionHash relayId (s.now + 60)
    simp only [AccountStore.exec,inserted,clock,first,second]
    refine { same with tickets := fun k alive held => ?_ }
    rw [memInsert first,memInsert second,same.tickets k alive held]
  | redeemTicket h relayId =>
    refine { same with tickets := fun k alive held => deleteBoth (same.tickets k alive held) fun there => ?_ }
    rw [clock]
    exact decide_eq_decide.mpr (and_congr_right fun _ => and_congr_right fun _ => and_congr_right fun _ =>
      liveSame kept kept' clock same (heldMine kept held))
  | purgeTickets =>
    exact { same with tickets := fun k alive held => deleteBoth (same.tickets k alive held) fun _ => by rw [clock] }
  | deleteDevicesOf name =>
    exact { same with devices := filterBoth same.devices }
  | deleteJobsOf name =>
    exact { same with jobs := filterBoth same.jobs }
  | selectUser h => exact same
  | selectHash name => exact same
  | verify password hash => exact same

theorem redeemable (kept : Kept prim o mine past s) (kept' : Kept prim o mine past s') (clock : s'.now = s.now)
    (same : Same o s.now s s') {k : RelayTicket} (owned : Mine prim mine k.hash) (inside : k ∈ s.tickets)
    (chosen : s.now < k.expires ∧ k.sessionHash ∈ s.liveHashes) :
    k ∈ s'.tickets ∧ s'.now < k.expires ∧ k.sessionHash ∈ s'.liveHashes := by
  have paired := (kept.tickets k inside).1.mp owned
  obtain ⟨row,there,hash,alive,_⟩ := memLiveHashes.mp chosen.2
  have held : Held o s.now s k := ⟨row,there,(kept.sessions row there).1.mpr (hash ▸ paired),alive,hash⟩
  exact ⟨(same.tickets k chosen.1 held).mp inside,clock ▸ chosen.1,(liveSame kept kept' clock same paired).mp chosen.2⟩

/- Statements whose counts nobody looks at. -/
def Counted : AccountStore.Op → Prop
  | .deleteTicketsOf _ | .deleteSessionsOf _ | .deleteJobsOf _ | .deleteDevicesOf _ | .purgeSessions | .purgeTickets
  | .revokeSession _ => True
  | _ => False

/- The others answer the account as if it were alone. -/
theorem answerSame (kept : Kept prim o mine past s) (kept' : Kept prim o mine past s') (clock : s'.now = s.now)
    (same : Same o s.now s s') {op : AccountStore.Op} (owned : Owned prim o mine past op)
    (plain : ¬ Counted op) : (AccountStore.exec prim op s).1 = (AccountStore.exec prim op s').1 := by
  cases op with
  | insertAccount name hash =>
    cases owned
    have both := accountInsert same hash
    simp only [AccountStore.exec,inserted]
    cases first : s.accounts.insert ⟨o,hash,true⟩ with
    | none =>
      rw [first] at both
      have second : s'.accounts.insert ⟨o,hash,true⟩ = none := Option.isSome_eq_false_iff.mp both.symm |> Option.isNone_iff_eq_none.mp
      rw [second]
    | some t =>
      rw [first] at both
      obtain ⟨t',second⟩ := Option.isSome_iff_exists.mp both.symm
      rw [second]
  | updatePassword hash name | updateEnabled enabled name | deleteAccount name =>
    cases owned
    exact congrArg Except.ok (accountAffected same)
  | selectUser h => exact ownerSame kept kept' clock same owned
  | selectHash name =>
    cases owned
    refine congrArg (fun (row : Option Account) => Except.ok (row.map Account.passwordHash)) ?_
    refine findAgree (fun _ _ => Eq.symm) (fun a b left right => ?_) fun a chosen => ?_
    · simp only [Bool.and_eq_true,decide_eq_true_eq] at left right
      exact left.1.trans right.1.symm
    · simp only [Bool.and_eq_true,decide_eq_true_eq] at chosen
      exact same.accounts a chosen.1
  | verify password hash => rfl
  | insertSession h name =>
    obtain ⟨_,first⟩ := sessionFresh kept owned.2.2 name (s.now + 86400)
    obtain ⟨_,second⟩ := sessionFresh kept' owned.2.2 name (s.now + 86400)
    simp only [AccountStore.exec,inserted,clock,first,second]
  | insertTicket h sessionHash relayId =>
    obtain ⟨_,first⟩ := ticketFresh kept owned.2.2 sessionHash relayId (s.now + 60)
    obtain ⟨_,second⟩ := ticketFresh kept' owned.2.2 sessionHash relayId (s.now + 60)
    simp only [AccountStore.exec,inserted,clock,first,second]
  | redeemTicket h relayId =>
    refine congrArg Except.ok (affectedAgree (fun _ => rfl) fun k => ?_)
    simp only [decide_eq_true_eq]
    constructor
    · rintro ⟨inside,rfl,rfl,chosen⟩
      obtain ⟨there,again⟩ := redeemable kept kept' clock same owned inside chosen
      exact ⟨there,rfl,rfl,again⟩
    · rintro ⟨inside,rfl,rfl,chosen⟩
      have back := sameSymm same
      rw [← clock] at back
      obtain ⟨there,again⟩ := redeemable kept' kept clock.symm back owned inside chosen
      exact ⟨there,rfl,rfl,again⟩
  | deleteTicketsOf _ | deleteSessionsOf _ | deleteJobsOf _ | deleteDevicesOf _ | purgeSessions | purgeTickets
  | revokeSession _ => exact absurd trivial plain

end Statements

section Calls
variable (prim : Primitives) (o : String) (mine : List String) (past : List Request) (time : Int)

/- Two states in the course of one request of the account. -/
structure Beside (s s' : Store) : Prop where
  clock : s.now = time
  clock' : s'.now = time
  same : Same o time s s'
  kept : Kept prim o mine past s
  kept' : Kept prim o mine past s'

variable {prim o mine past time} {later : List Request} {s s' : Store}

theorem besideOp (beside : Beside prim o mine past time s s') (more : past ⊆ later) {op : AccountStore.Op}
    (owned : Owned prim o mine past op)
    (paired : Paired prim o mine later op) :
    Beside prim o mine later time (AccountStore.exec prim op s).2 (AccountStore.exec prim op s').2 := by
  obtain ⟨rfl,clock,same,kept,kept'⟩ := beside
  exact ⟨by simp,by simpa using clock,ownedSame kept kept' clock same owned,keptAfter (keptMono more kept) paired,
    keptAfter (keptMono more kept') paired⟩

theorem besideAnswer (beside : Beside prim o mine past time s s') {op : AccountStore.Op}
    (owned : Owned prim o mine past op) (plain : ¬ Counted op) :
    (AccountStore.exec prim op s).1 = (AccountStore.exec prim op s').1 := by
  obtain ⟨rfl,clock,same,kept,kept'⟩ := beside
  exact answerSame kept kept' clock same owned plain

theorem besideMono (more : past ⊆ later) (beside : Beside prim o mine past time s s') :
    Beside prim o mine later time s s' :=
  ⟨beside.clock,beside.clock',beside.same,keptMono more beside.kept,keptMono more beside.kept'⟩

abbrev Alone {α : Type} (prim : Primitives) (o : String) (mine : List String) (past later : List Request) (time : Int)
    (p : Prog AccountStore.Op AccountStore.Resp α) : Prop :=
  Together (AccountStore.exec prim) (Beside prim o mine past time) (Beside prim o mine later time) p p

theorem aloneRet {α : Type} (more : past ⊆ later) (value : α) : Alone prim o mine past later time (.ret value) :=
  togetherRet fun _ _ => besideMono more

/- A statement whose answer the program goes by. -/
theorem aloneOp {α : Type} {op : AccountStore.Op} {next : AccountStore.Resp op → Prog AccountStore.Op AccountStore.Resp α}
    (owned : Owned prim o mine past op) (plain : ¬ Counted op)
    (paired : Paired prim o mine past op)
    (rest : ∀ s, Kept prim o mine past s → Alone prim o mine past later time (next (AccountStore.exec prim op s).1)) :
    Alone prim o mine past later time (.op op next) :=
  togetherSame (fun _ _ beside => besideAnswer beside owned plain)
    (fun _ _ beside => besideOp beside (List.Subset.refl past) owned paired) fun s _ beside => rest s beside.kept

theorem aloneCount {α : Type} {op : AccountStore.Op} {next : AccountStore.Resp op → Prog AccountStore.Op AccountStore.Resp α}
    {rest} (owned : Owned prim o mine past op)
    (paired : Paired prim o mine past op)
    (ignores : ∀ s, next (AccountStore.exec prim op s).1 = rest) (alone : Alone prim o mine past later time rest) :
    Alone prim o mine past later time (.op op next) := by
  refine togetherOp fun s s' beside => ⟨besideOp beside (List.Subset.refl past) owned paired,?_⟩
  rw [ignores,ignores]
  exact alone

/- The statement that inserts what the request has minted is its last. -/
theorem aloneInsert {α : Type} {op : AccountStore.Op} {next : AccountStore.Resp op → Prog AccountStore.Op AccountStore.Resp α}
    (owned : Owned prim o mine past op) (plain : ¬ Counted op) (more : past ⊆ later)
    (paired : Paired prim o mine later op)
    (rest : ∀ r, Alone prim o mine later later time (next r)) : Alone prim o mine past later time (.op op next) :=
  togetherSame (fun _ _ beside => besideAnswer beside owned plain) (fun _ _ beside => besideOp beside more owned paired)
    fun _ _ _ => rest _

theorem aloneAfterwards {β γ : Type} {next : β → Prog AccountStore.Op AccountStore.Resp (Except Error γ)} (more : past ⊆ later)
    (each : ∀ value, Alone prim o mine past later time (next value)) (r : Except DbError β) :
    Alone prim o mine past later time (afterwards next r) := by
  cases r with
  | ok value => exact each value
  | error e => exact aloneRet more _

variable (more : past ⊆ later)
include more

theorem revokeUserAlone : Alone prim o mine past later time (revokeUser o).run := by
  rw [revokeUserTree]
  refine aloneCount rfl trivial (fun _ => rfl) ?_
  exact aloneCount rfl trivial (fun _ => rfl) (aloneRet more _)

theorem createUserAlone (password salt : String) :
    Alone prim o mine past later time (createUser prim o password salt).run := by
  rw [createUserTree]
  refine togetherIte (fun _ => aloneRet more _) fun _ => togetherIte (fun _ => aloneRet more _) fun _ => ?_
  exact aloneOp rfl id trivial fun s _ => aloneAfterwards more (fun _ => aloneRet more _) _

theorem setPasswordAlone (password salt : String) :
    Alone prim o mine past later time (setPassword prim o password salt).run := by
  rw [setPasswordTree]
  refine togetherIte (fun _ => aloneRet more _) fun _ => ?_
  refine aloneOp rfl id trivial fun s _ => aloneAfterwards more (fun rows => ?_) _
  exact togetherIte (fun _ => aloneRet more _) fun _ => revokeUserAlone more

theorem setEnabledAlone (enabled : Bool) : Alone prim o mine past later time (setEnabled o enabled).run := by
  rw [setEnabledTree]
  refine aloneOp rfl id trivial fun s _ => aloneAfterwards more (fun rows => ?_) _
  refine togetherIte (fun _ => aloneRet more _) fun _ => ?_
  exact togetherIte (fun _ => aloneRet more _) fun _ => revokeUserAlone more

theorem deleteUserAlone : Alone prim o mine past later time (deleteUser o).run := by
  rw [deleteUserTree]
  refine aloneCount rfl trivial (fun _ => rfl) ?_
  refine aloneCount rfl trivial (fun _ => rfl) ?_
  refine aloneCount rfl trivial (fun _ => rfl) ?_
  refine aloneCount rfl trivial (fun _ => rfl) ?_
  refine aloneOp rfl id trivial fun s _ => aloneAfterwards more (fun rows => ?_) _
  exact togetherIte (fun _ => aloneRet more _) fun _ => aloneRet more _

theorem userAlone {token : String} (owned : Mine prim mine (prim.digest token)) :
    Alone prim o mine past later time (user prim token).run := by
  rw [userTree]
  refine togetherIte (fun _ => aloneRet more _) fun _ => ?_
  exact aloneOp owned id trivial fun s _ => aloneAfterwards more (fun _ => aloneRet more _) _

theorem redeemAlone {k : String} (owned : Mine prim mine (prim.digest k)) (relayId : String) :
    Alone prim o mine past later time (redeem prim k relayId).run := by
  rw [redeemTree]
  refine togetherIte (fun _ => aloneRet more _) fun _ => ?_
  exact aloneOp owned id trivial fun s _ => aloneAfterwards more (fun _ => aloneRet more _) _

theorem revokeAlone {token : String} (owned : Mine prim mine (prim.digest token)) :
    Alone prim o mine past later time (revoke prim token).run := by
  rw [revokeTree]
  exact aloneCount owned trivial (fun _ => rfl) (aloneRet more _)

theorem loginAlone (password : String) (minted : Minted) (owned : Mine prim mine (prim.digest minted.text))
    (fresh : ¬ Old prim past (prim.digest minted.text)) (old : Old prim later (prim.digest minted.text)) :
    Alone prim o mine past later time (login prim o password minted).run := by
  rw [loginTree]
  refine togetherIte (fun _ => aloneRet more _) fun _ => ?_
  refine aloneOp rfl id trivial fun s _ => aloneAfterwards more (fun hash => ?_) _
  refine aloneOp trivial id trivial fun s _ => togetherIte (fun _ => aloneRet more _) fun _ => ?_
  refine aloneCount trivial trivial (fun _ => rfl) ?_
  refine aloneInsert ⟨rfl,owned,fresh⟩ id more ⟨⟨fun _ => owned,fun _ => rfl⟩,old⟩ ?_
  exact aloneAfterwards (List.Subset.refl later) fun _ => aloneRet (List.Subset.refl later) _

theorem ticketAlone {token : String} (relayId : String) (minted : Minted) (owned : Mine prim mine (prim.digest token))
    (owned' : Mine prim mine (prim.digest minted.text)) (fresh : ¬ Old prim past (prim.digest minted.text))
    (old : Old prim later (prim.digest minted.text)) :
    Alone prim o mine past later time (ticket prim token relayId minted).run := by
  rw [ticketTree]
  refine togetherIte (fun _ => aloneRet more _) fun _ => togetherIte (fun _ => aloneRet more _) fun _ => ?_
  refine aloneOp owned id trivial fun s kept => ?_
  cases found : (AccountStore.exec prim (.selectUser (prim.digest token)) s).1 with
  | error e => exact aloneRet more _
  | ok name =>
    refine togetherIte (fun _ => aloneRet more _) fun known => ?_
    obtain ⟨name,rfl⟩ := Option.ne_none_iff_exists'.mp fun none => known (Option.isNone_iff_eq_none.mpr none)
    have older := oldMono more (ownerOld kept found)
    refine aloneCount trivial trivial (fun _ => rfl) ?_
    refine aloneInsert ⟨owned',owned,fresh⟩ id more ⟨⟨fun _ => owned,fun _ => owned'⟩,old,fun _ => older⟩ ?_
    exact aloneAfterwards (List.Subset.refl later) fun _ => aloneRet (List.Subset.refl later) _

omit more in
/- A call of the account to the store answers it in both states alike. -/
theorem ownCall {c : AccountCalls.Call} (owned : Own o mine (.call (.account c)))
    (fresh : ∀ y ∈ c.minted, ¬ Old prim past (prim.digest y)) :
    Alone prim o mine past (past ++ [.call (.account c)]) time (AccountCalls.program prim c) := by
  have more : past ⊆ past ++ [.call (.account c)] := List.subset_append_left _ _
  have held : ∀ x ∈ mine, Mine prim mine (prim.digest x) := fun x inside => ⟨x,inside,rfl⟩
  have old : ∀ y ∈ c.minted, Old prim (past ++ [.call (.account c)]) (prim.digest y) := fun y inside =>
    ⟨_,List.mem_append_right _ (List.mem_singleton_self _),y,inside,rfl⟩
  obtain ⟨bearer,mints⟩ := owned
  cases c with
  | createUser name password salt => cases bearer; exact togetherMap (createUserAlone more password salt)
  | setPassword name password salt => cases bearer; exact togetherMap (setPasswordAlone more password salt)
  | setEnabled name enabled => cases bearer; exact togetherMap (setEnabledAlone more enabled)
  | deleteUser name => cases bearer; exact togetherMap (deleteUserAlone more)
  | user token => exact togetherMap (userAlone more (held _ bearer))
  | login name password minted =>
    cases bearer
    have inside : minted.text ∈ [minted.text] := List.mem_singleton_self _
    exact togetherMap (loginAlone more password minted (held _ (mints _ inside)) (fresh _ inside) (old _ inside))
  | ticket token relayId minted =>
    have inside : minted.text ∈ [minted.text] := List.mem_singleton_self _
    exact togetherMap (ticketAlone more relayId minted (held _ bearer) (held _ (mints _ inside)) (fresh _ inside)
      (old _ inside))
  | redeem k relayId => exact togetherMap (redeemAlone more (held _ bearer) relayId)
  | revoke token => exact togetherMap (revokeAlone more (held _ bearer))

end Calls

section Web
variable {prim : Primitives} {o : String} {mine : List String} {past : List Request} {time : Int} {s s' : Store}

/- The statements of `poll`, `status` and `wake` behind their login. -/
def OwnedWol (o : String) : Op → Prop
  | .account _ => False
  | .clock => True
  | .selectSeen owner _ | .selectHelpers owner _ | .upsertDevice owner _ _ _ | .takeJobs owner _
  | .upsertJob owner _ _ => owner = o

theorem filterPart {ρ : Type} {t t' : List ρ} {p q : ρ → Bool} (part : ∀ a, q a = true → p a = true)
    (same : t.filter p = t'.filter p) : t.filter q = t'.filter q := by
  have split : ∀ u : List ρ, u.filter q = (u.filter p).filter q := by
    intro u
    rw [List.filter_filter]
    refine List.filter_congr fun a _ => ?_
    cases chosen : q a with
    | true => simp [part a chosen]
    | false => simp
  rw [split t,split t',same]

theorem filterUpsert {ρ : Type} {clash : ρ → ρ → Prop} [DecidableRel clash] {t t' : Table ρ clash} {r : ρ} {p : ρ → Bool}
    (same : t.rows.filter p = t'.rows.filter p) : (t.upsert r).rows.filter p = (t'.upsert r).rows.filter p := by
  simp only [Table.upsert,List.filter_append]
  rw [List.filter_comm,same,List.filter_comm]

theorem helpersSame (beside : Beside prim o mine past time s s') (target : String) :
    Store.helpers s o target = Store.helpers s' o target := by
  obtain ⟨rfl,clock,same,_,_⟩ := beside
  simp only [Store.helpers,clock]
  congr 1
  rw [filterPart (p := fun d => d.owner = o) (fun d chosen => decide_eq_true (of_decide_eq_true chosen).1) same.devices]
  refine List.filter_congr fun d _ => decide_eq_decide.mpr ?_
  refine and_congr_right fun owned => and_congr_right fun _ => and_congr_right fun _ => ?_
  constructor
  · rintro ⟨row,inside,hash,alive,named⟩
    exact ⟨row,(same.sessions row (named.trans owned) alive).mp inside,hash,alive,named⟩
  · rintro ⟨row,inside,hash,alive,named⟩
    exact ⟨row,(same.sessions row (named.trans owned) alive).mpr inside,hash,alive,named⟩

theorem queuedSame (beside : Beside prim o mine past time s s') (target : String) :
    (∃ j ∈ s.jobs.rows, j.owner = o ∧ j.target = target ∧ s.now ≤ j.expires) ↔
      ∃ j ∈ s'.jobs.rows, j.owner = o ∧ j.target = target ∧ s'.now ≤ j.expires := by
  obtain ⟨rfl,clock,same,_,_⟩ := beside
  have member : ∀ j : WolJob, j.owner = o → (j ∈ s.jobs.rows ↔ j ∈ s'.jobs.rows) := by
    intro j owned
    have inside : ∀ t : List WolJob, j ∈ t ↔ j ∈ t.filter fun j => j.owner = o := by simp [owned]
    rw [inside s.jobs.rows,inside s'.jobs.rows,same.jobs]
  rw [clock]
  constructor
  · rintro ⟨j,inside,owned,rest⟩
    exact ⟨j,(member j owned).mp inside,owned,rest⟩
  · rintro ⟨j,inside,owned,rest⟩
    exact ⟨j,(member j owned).mpr inside,owned,rest⟩

theorem besideWol (beside : Beside prim o mine past time s s') {op : Op} (owned : OwnedWol o op) :
    (exec prim op s).1 = (exec prim op s').1 ∧ Beside prim o mine past time (exec prim op s).2 (exec prim op s').2 := by
  obtain ⟨clock,clock',same,kept,kept'⟩ := beside
  cases op with
  | account op => exact owned.elim
  | clock => exact ⟨clock.trans clock'.symm,clock,clock',same,kept,kept'⟩
  | selectSeen owner id =>
    cases owned
    refine ⟨?_,clock,clock',same,kept,kept'⟩
    simp only [exec]
    rw [← List.head?_filter,← List.head?_filter]
    rw [filterPart (p := fun d => d.owner = o) (fun d chosen => decide_eq_true (of_decide_eq_true chosen).1) same.devices]
  | selectHelpers owner target =>
    cases owned
    refine ⟨?_,clock,clock',same,kept,kept'⟩
    simp only [exec]
    rw [helpersSame ⟨clock,clock',same,kept,kept'⟩]
  | upsertDevice owner id session peers =>
    refine ⟨rfl,clock,clock',{ same with devices := ?_ },{ kept with },{ kept' with }⟩
    simp only [exec,clock,clock']
    exact filterUpsert same.devices
  | takeJobs owner helper =>
    cases owned
    refine ⟨?_,clock,clock',{ same with jobs := filterBoth same.jobs },{ kept with },{ kept' with }⟩
    simp only [exec]
    rw [filterPart (p := fun j => j.owner = o) (fun j chosen => decide_eq_true (of_decide_eq_true chosen).1) same.jobs]
  | upsertJob owner target helper =>
    cases owned
    have queued := queuedSame ⟨clock,clock',same,kept,kept'⟩ target
    by_cases there : ∃ j ∈ s.jobs.rows, j.owner = o ∧ j.target = target ∧ s.now ≤ j.expires
    · simp only [exec,if_pos there,if_pos (queued.mp there)]
      exact ⟨trivial,clock,clock',same,kept,kept'⟩
    · have left : exec prim (.upsertJob o target helper) s =
          (.ok 1,{ s with jobs := s.jobs.upsert ⟨o,target,helper,s.now + 30⟩ }) := if_neg there
      have right : exec prim (.upsertJob o target helper) s' =
          (.ok 1,{ s' with jobs := s'.jobs.upsert ⟨o,target,helper,s'.now + 30⟩ }) := if_neg (mt queued.mpr there)
      rw [left,right,clock']
      exact ⟨rfl,clock,rfl,{ same with jobs := by rw [clock]; exact filterUpsert same.jobs },{ kept with },{ kept' with }⟩

abbrev AloneWeb {α : Type} (prim : Primitives) (o : String) (mine : List String) (past : List Request) (time : Int)
    (p : Prog Op Resp α) : Prop :=
  Together (exec prim) (Beside prim o mine past time) (Beside prim o mine past time) p p

section Ways
variable {β γ : Type} {f : β → Web γ}

theorem stays {α : Type} (value : α) : AloneWeb prim o mine past time (.ret value) := togetherRet fun _ _ => id

theorem onwardAlone {next : β → Prog Op Resp (Except Refusal γ)} (rest : ∀ value, AloneWeb prim o mine past time (next value))
    (r : Except Refusal β) : AloneWeb prim o mine past time (onward next r) := by
  cases r with
  | ok value => exact rest value
  | error e => exact stays _

theorem queryAlone {op : Op} {read : Resp op → Except DbError β} (owned : OwnedWol o op)
    (rest : ∀ value, AloneWeb prim o mine past time (f value).run) :
    AloneWeb prim o mine past time (query op read >>= f).run := by
  rw [webRun,queryRun]
  exact togetherSame (fun _ _ beside => (besideWol beside owned).1) (fun _ _ beside => (besideWol beside owned).2)
    fun _ _ _ => onwardAlone rest _

theorem clockAlone {f : Int → Web γ} (rest : ∀ now, AloneWeb prim o mine past time (f now).run) :
    AloneWeb prim o mine past time (clock >>= f).run := by
  have owned : OwnedWol o .clock := trivial
  exact togetherSame (fun _ _ beside => (besideWol beside owned).1) (fun _ _ beside => (besideWol beside owned).2)
    fun s _ _ => rest s.now

/- Behind the login of the account everything is done in its name. -/
theorem ownerAlone {token : String} {f : String → Web γ} (owned : Mine prim mine (prim.digest token))
    (rest : AloneWeb prim o mine past time (f o).run) : AloneWeb prim o mine past time (owner prim token >>= f).run := by
  rw [webRun]
  change AloneWeb prim o mine past time ((embedded (user prim token).run >>= fun found => _) >>= _)
  rw [userTree]
  by_cases short : token.utf8ByteSize ≠ 64
  · rw [if_pos short]
    exact stays _
  · rw [if_neg short]
    refine togetherSame (fun _ _ beside => besideAnswer beside owned id)
      (fun _ _ beside => besideOp beside (List.Subset.refl past) owned trivial) fun s _ beside => ?_
    generalize found : (exec prim (.account (.selectUser (prim.digest token))) s).1 = r
    cases r with
    | error e => exact stays _
    | ok name =>
      cases name with
      | none => exact stays _
      | some name =>
        cases (ownerIs beside.kept found).mpr owned
        exact rest

end Ways

theorem targetsAlone (peers : List String) (jobs : List (String × Int)) :
    AloneWeb prim o mine past time (targets peers jobs).run := by
  induction jobs with
  | nil => exact stays _
  | cons job rest ih =>
    refine clockAlone fun now => ?_
    rw [webRun]
    refine togetherBind (fun _ => True) (fun s s' beside => ?_) fun r _ => onwardAlone (fun _ => stays _) r
    obtain ⟨value,after⟩ := ih s s' beside
    exact ⟨value,after,trivial⟩

theorem pollAlone {token : String} (owned : Mine prim mine (prim.digest token)) (id : String) (peers : List String) :
    AloneWeb prim o mine past time (poll prim token id peers).run := by
  refine ownerAlone owned ?_
  split
  · exact stays _
  · exact queryAlone rfl fun _ => queryAlone rfl fun jobs => targetsAlone peers jobs

theorem availabilityAlone (target : String) : AloneWeb prim o mine past time (availability o target).run := by
  refine queryAlone rfl fun row => ?_
  cases row with
  | none => exact stays _
  | some seen =>
    refine clockAlone fun now => ?_
    by_cases online : now - 30 ≤ seen
    · simp only [if_pos online]
      exact stays _
    · simp only [if_neg online]
      refine queryAlone rfl fun helpers => ?_
      cases helpers.find? fun h => target ∈ h.2 with
      | none => exact stays _
      | some row => exact stays _

theorem behindAvailability {β : Type} (target : String) {f : String × Option String → Web β}
    (rest : ∀ found, AloneWeb prim o mine past time (f found).run) :
    AloneWeb prim o mine past time (availability o target >>= f).run := by
  rw [webRun]
  refine togetherBind (fun _ => True) (fun s s' beside => ?_) fun r _ => onwardAlone rest r
  obtain ⟨value,after⟩ := availabilityAlone target s s' beside
  exact ⟨value,after,trivial⟩

theorem statusAlone {token : String} (owned : Mine prim mine (prim.digest token)) (target : String) :
    AloneWeb prim o mine past time (status prim token target).run :=
  ownerAlone owned (behindAvailability target fun _ => stays _)

theorem wakeAlone {token : String} (owned : Mine prim mine (prim.digest token)) (target : String) :
    AloneWeb prim o mine past time (wake prim token target).run := by
  refine ownerAlone owned (behindAvailability target fun found => ?_)
  obtain ⟨state,helper⟩ := found
  cases helper with
  | none => exact stays _
  | some helper =>
    refine queryAlone rfl fun rows => ?_
    by_cases none : rows = 0
    · simp only [if_pos none]
      exact stays _
    · simp only [if_neg none]
      exact stays _

end Web

section Others
variable (prim : Primitives) (o : String) (mine : List String) (later : List Request) (time : Int) (u : Store)

/- A state in the course of a request of others, as the account saw it before. -/
structure Untouched (s : Store) : Prop where
  clock : s.now = time
  same : Same o time s u
  kept : Kept prim o mine later s

variable {prim o mine later time u} {s : Store}

theorem untouchedOp {op : AccountStore.Op} (apart : Apart prim o mine later op)
    (holds : Untouched prim o mine later time u s) : Untouched prim o mine later time u (AccountStore.exec prim op s).2 := by
  obtain ⟨rfl,same,kept⟩ := holds
  exact ⟨by simp,sameTrans (apartSame kept apart) same,keptAfter kept (apartPaired apart)⟩

/- The requests of others execute statements of others. -/
theorem foreignApart {c : AccountCalls.Call}
    (bearer : (Request.call (.account c)).credential.Other prim o mine)
    (strange : ∀ y ∈ c.minted, ¬ Mine prim mine (prim.digest y)) (old : ∀ y ∈ c.minted, Old prim later (prim.digest y))
    (op : AccountStore.Op) (belongs : AccountCalls.Belongs prim c op) :
    Apart prim o mine later op := by
  cases op with
  | insertAccount name _ => obtain ⟨_,_,rfl⟩ := belongs; exact bearer
  | updatePassword _ name => obtain ⟨_,_,rfl⟩ := belongs; exact bearer
  | updateEnabled enabled name => cases belongs; exact bearer
  | deleteAccount name => cases belongs; exact bearer
  | deleteJobsOf name => cases belongs; exact bearer
  | deleteDevicesOf name => cases belongs; exact bearer
  | deleteTicketsOf name => obtain ⟨_,_,rfl⟩ | rfl | rfl := belongs <;> exact bearer
  | deleteSessionsOf name => obtain ⟨_,_,rfl⟩ | rfl | rfl := belongs <;> exact bearer
  | insertSession h name =>
    obtain ⟨_,minted,rfl,rfl⟩ := belongs
    have inside : minted.text ∈ [minted.text] := List.mem_singleton_self _
    exact ⟨bearer,strange _ inside,old _ inside⟩
  | insertTicket h sessionHash relayId =>
    obtain ⟨_,minted,rfl,rfl,rfl⟩ := belongs
    have inside : minted.text ∈ [minted.text] := List.mem_singleton_self _
    exact ⟨strange _ inside,bearer,old _ inside⟩
  | redeemTicket h _ => obtain ⟨_,rfl,rfl⟩ := belongs; exact bearer
  | revokeSession h => obtain ⟨_,rfl,rfl⟩ := belongs; exact bearer
  | _ => trivial

/- A login that is refused writes nothing. -/
theorem refusedTail {β : Type} {valid : Bool} {p : Prog AccountStore.Op AccountStore.Resp β} {value : β}
    (writes : (p.run (AccountStore.exec prim) s).1 ≠ value)
    (refused : ((if valid = false then .ret value else p).run (AccountStore.exec prim) s).1 = value) :
    ((if valid = false then .ret value else p).run (AccountStore.exec prim) s).2 = s := by
  cases valid with
  | false => rfl
  | true => exact absurd refused writes

theorem refusedLogin {name password : String} {minted : Minted}
    (refused : ((login prim name password minted).run.run (AccountStore.exec prim) s).1 = .ok none) :
    ((login prim name password minted).run.run (AccountStore.exec prim) s).2 = s := by
  rw [loginTree] at refused ⊢
  by_cases long : name.utf8ByteSize > 64 ∨ password.utf8ByteSize > 72
  · rw [if_pos long]
    rfl
  · rw [if_neg long] at refused ⊢
    refine refusedTail (fun same => ?_) refused
    simp only [Prog.run,AccountStore.exec,afterwards,inserted] at same
    split at same <;> cases same

def OtherWol (o : String) : Op → Prop
  | .account _ => False
  | .clock | .selectSeen _ _ | .selectHelpers _ _ => True
  | .upsertDevice owner _ _ _ | .takeJobs owner _ | .upsertJob owner _ _ => owner ≠ o

theorem filterUpsertApart {ρ : Type} {clash : ρ → ρ → Prop} [DecidableRel clash] {t : Table ρ clash} {r : ρ} {p : ρ → Bool}
    (new : p r = false) (apart : ∀ a, p a = true → ¬ clash a r) : (t.upsert r).rows.filter p = t.rows.filter p := by
  simp only [Table.upsert,List.filter_append]
  rw [List.filter_cons_of_neg (by simp [new]),List.filter_nil,List.append_nil,List.filter_filter]
  refine List.filter_congr fun a _ => ?_
  cases chosen : p a with
  | true => simp [apart a chosen]
  | false => rfl

theorem untouchedWol {op : Op} (other : OtherWol o op) (holds : Untouched prim o mine later time u s) :
    Untouched prim o mine later time u (exec prim op s).2 := by
  obtain ⟨clock,same,kept⟩ := holds
  cases op with
  | account op => exact other.elim
  | upsertDevice owner id session peers =>
    refine ⟨clock,{ same with devices := Eq.trans ?_ same.devices },{ kept with }⟩
    refine filterUpsertApart (decide_eq_false other) fun d owned hit => other ?_
    exact hit.1.symm.trans (of_decide_eq_true owned)
  | takeJobs owner helper =>
    refine ⟨clock,{ same with jobs := Eq.trans ?_ same.jobs },{ kept with }⟩
    refine filterDelete fun j owned => decide_eq_false fun hit => other ?_
    exact hit.1.symm.trans (of_decide_eq_true owned)
  | upsertJob owner target helper =>
    by_cases there : ∃ j ∈ s.jobs.rows, j.owner = owner ∧ j.target = target ∧ s.now ≤ j.expires
    · simp only [exec,if_pos there]
      exact ⟨clock,same,kept⟩
    · simp only [exec,if_neg there]
      refine ⟨clock,{ same with jobs := Eq.trans ?_ same.jobs },{ kept with }⟩
      refine filterUpsertApart (decide_eq_false other) fun j owned hit => other ?_
      exact hit.1.symm.trans (of_decide_eq_true owned)
  | clock | selectSeen _ _ | selectHelpers _ _ => exact ⟨clock,same,kept⟩

abbrev Spares {α : Type} (prim : Primitives) (o : String) (mine : List String) (later : List Request) (time : Int)
    (u : Store) (p : Prog Op Resp α) : Prop := Keeps (exec prim) (Untouched prim o mine later time u) p

section Ways
variable {β γ : Type}

theorem webSpares {p : Web β} {f : β → Web γ} (first : Spares prim o mine later time u p.run)
    (rest : ∀ value, Spares prim o mine later time u (f value).run) : Spares prim o mine later time u (p >>= f).run := by
  rw [webRun]
  refine keepsBind first fun r => ?_
  cases r with
  | ok value => exact rest value
  | error e => exact keepsRet

theorem querySpares {op : Op} {read : Resp op → Except DbError β} (other : OtherWol o op) :
    Spares prim o mine later time u (query op read).run := by
  rw [queryRun]
  exact keepsOp fun _ holds => ⟨untouchedWol other holds,keepsRet⟩

theorem clockSpares : Spares prim o mine later time u clock.run := keepsOp fun _ holds => ⟨holds,keepsRet⟩

/- Behind a login of others nothing is done in the name of the account. -/
theorem ownerSpares {token : String} {f : String → Web γ} (strange : ¬ Mine prim mine (prim.digest token))
    (rest : ∀ name, name ≠ o → Spares prim o mine later time u (f name).run) :
    Spares prim o mine later time u (owner prim token >>= f).run := by
  rw [webRun]
  change Spares prim o mine later time u ((embedded (user prim token).run >>= fun found => _) >>= _)
  rw [userTree]
  by_cases short : token.utf8ByteSize ≠ 64
  · rw [if_pos short]
    exact keepsRet
  · rw [if_neg short]
    refine keepsOp fun s holds => ⟨holds,?_⟩
    generalize found : (exec prim (.account (.selectUser (prim.digest token))) s).1 = r
    cases r with
    | error e => exact keepsRet
    | ok name =>
      cases name with
      | none => exact keepsRet
      | some name => exact rest name fun same => strange ((ownerIs holds.kept found).mp same)

end Ways

theorem targetsSpares (peers : List String) (jobs : List (String × Int)) :
    Spares prim o mine later time u (targets peers jobs).run := by
  induction jobs with
  | nil => exact keepsRet
  | cons job rest ih => exact webSpares clockSpares fun now => webSpares ih fun more => keepsRet

theorem pollSpares {token : String} (strange : ¬ Mine prim mine (prim.digest token)) (id : String) (peers : List String) :
    Spares prim o mine later time u (poll prim token id peers).run := by
  refine ownerSpares strange fun name other => ?_
  split
  · exact keepsRet
  · exact webSpares (querySpares other) fun _ => webSpares (querySpares other) fun jobs => targetsSpares peers jobs

theorem availabilitySpares (name target : String) : Spares prim o mine later time u (availability name target).run := by
  refine webSpares (querySpares trivial) fun row => ?_
  cases row with
  | none => exact keepsRet
  | some seen =>
    refine webSpares clockSpares fun now => ?_
    by_cases online : now - 30 ≤ seen
    · simp only [if_pos online]
      exact keepsRet
    · simp only [if_neg online]
      refine webSpares (querySpares trivial) fun helpers => ?_
      cases helpers.find? fun h => target ∈ h.2 with
      | none => exact keepsRet
      | some row => exact keepsRet

theorem statusSpares {token : String} (strange : ¬ Mine prim mine (prim.digest token)) (target : String) :
    Spares prim o mine later time u (status prim token target).run :=
  ownerSpares strange fun name _ => webSpares (availabilitySpares name target) fun _ => keepsRet

theorem wakeSpares {token : String} (strange : ¬ Mine prim mine (prim.digest token)) (target : String) :
    Spares prim o mine later time u (wake prim token target).run := by
  refine ownerSpares strange fun name other => webSpares (availabilitySpares name target) fun found => ?_
  obtain ⟨state,helper⟩ := found
  cases helper with
  | none => exact keepsRet
  | some helper =>
    refine webSpares (querySpares other) fun rows => ?_
    by_cases none : rows = 0
    · simp only [if_pos none]
      exact keepsRet
    · simp only [if_neg none]
      exact keepsRet

end Others

section Requests
variable {prim : Primitives} {o : String} {mine : List String} {past : List Request} {time : Int} {s s' u : Store}

theorem besideStart (alike : Alike prim o mine past time s s') :
    Beside prim o mine past time { s with now := time } { s' with now := time } := by
  obtain ⟨same,kept,kept'⟩ := alike
  exact ⟨rfl,rfl,{ same with },{ kept with },{ kept' with }⟩

theorem besideEnd (beside : Beside prim o mine past time s s') : Alike prim o mine past time s s' :=
  ⟨beside.same,beside.kept,beside.kept'⟩

theorem entrySame (beside : Beside prim o mine past time s s') :
    ((listUsers s).find? fun row => row.name = o) = (listUsers s').find? fun row => row.name = o := by
  obtain ⟨rfl,clock,same,_,_⟩ := beside
  have only : ∀ v : Store, ∀ a ∈ v.accounts.rows.insertionSort fun a b => a.name ≤ b.name,
      ∀ b ∈ v.accounts.rows.insertionSort fun a b => a.name ≤ b.name,
        decide (a.name = o) = true → decide (b.name = o) = true → a = b := by
    intro v a left b right first second
    exact sameRow (fun _ _ => Eq.symm) (memRows.mpr ((List.mem_insertionSort _).mp left))
      (memRows.mpr ((List.mem_insertionSort _).mp right)) ((of_decide_eq_true first).trans (of_decide_eq_true second).symm)
  have account := findList (only s) (only s') fun a named => by
    rw [List.mem_insertionSort,List.mem_insertionSort]
    exact same.accounts a (of_decide_eq_true named)
  have count : (s.sessions.affected fun row => row.name = o ∧ s.now < row.expires) =
      s'.sessions.affected fun row => row.name = o ∧ s'.now < row.expires := by
    rw [clock]
    refine affectedAgree (fun _ => rfl) fun row => ?_
    simp only [decide_eq_true_eq]
    constructor
    · rintro ⟨inside,named,alive⟩
      exact ⟨(same.sessions row named alive).mp inside,named,alive⟩
    · rintro ⟨inside,named,alive⟩
      exact ⟨(same.sessions row named alive).mpr inside,named,alive⟩
  simp only [listUsers,List.find?_map,Function.comp_def]
  rw [← account]
  cases found : (s.accounts.rows.insertionSort fun a b => a.name ≤ b.name).find? fun a => a.name = o with
  | none => rfl
  | some a =>
    have chosen := List.find?_some found
    have named : a.name = o := of_decide_eq_true chosen
    simp only [Option.map_some,named]
    exact congrArg (fun n => some (AccountSummary.mk o a.enabled n)) count

theorem accountRun (c : AccountCalls.Call) (s : Store) : (program prim (.account c)).run (exec prim) s =
    ((AccountCalls.program prim c).run (AccountStore.exec prim) s).map .account id := by
  have same : (embedded (AccountCalls.program prim c)).run (exec prim) s =
      (AccountCalls.program prim c).run (AccountStore.exec prim) s := runEmbed (fun _ _ => rfl) _ s
  rw [program,runMap,same]
  rfl

/- A call whose program keeps two states alike answers it in both alike. -/
theorem servedAlike {c : Call} {later : List Request} (alike : Alike prim o mine past time s s')
    (together : Together (exec prim) (Beside prim o mine past time) (Beside prim o mine later time)
      (program prim c) (program prim c)) :
    (serve prim time (.call c) s).1 = (serve prim time (.call c) s').1 ∧
      Alike prim o mine later time (serve prim time (.call c) s).2 (serve prim time (.call c) s').2 := by
  obtain ⟨answer,after⟩ := together _ _ (besideStart alike)
  exact ⟨congrArg Reply.call answer,besideEnd after⟩

theorem ownServe {x : Step Int Request} (fresh : ∀ y ∈ x.req.minted, ¬ Old prim past (prim.digest y))
    (owned : Own o mine x.req) (alike : Alike prim o mine past x.time s s') :
    (serve prim x.time x.req s).1 = (serve prim x.time x.req s').1 ∧
      Alike prim o mine (past ++ [x.req]) x.time (serve prim x.time x.req s).2 (serve prim x.time x.req s').2 := by
  obtain ⟨time,own,c⟩ := x
  have more : past ⊆ past ++ [c] := List.subset_append_left _ _
  have held : ∀ x ∈ mine, Mine prim mine (prim.digest x) := fun x inside => ⟨x,inside,rfl⟩
  have wider : ∀ {p : Prog Op Resp Answer}, AloneWeb prim o mine past time p →
      Together (exec prim) (Beside prim o mine past time) (Beside prim o mine (past ++ [c]) time) p p := by
    intro p alone s s' beside
    obtain ⟨answer,after⟩ := alone s s' beside
    exact ⟨answer,besideMono more after⟩
  cases c with
  | entry name =>
    have named : name = o := owned.1
    subst named
    exact ⟨congrArg Reply.entry (entrySame (besideStart alike)),besideEnd (besideMono more (besideStart alike))⟩
  | call c =>
    refine servedAlike alike ?_
    cases c with
    | account c =>
      intro s s' beside
      obtain ⟨answer,after⟩ := ownCall owned fresh s s' beside
      rw [accountRun,accountRun]
      exact ⟨congrArg Answer.account answer,after⟩
    | poll token id peers => exact wider (togetherMap (pollAlone (held _ owned.1) id peers))
    | status token target => exact wider (togetherMap (statusAlone (held _ owned.1) target))
    | wake token target => exact wider (togetherMap (wakeAlone (held _ owned.1) target))

theorem servedSpares {c : Call} {later : List Request} (more : past ⊆ later) (alike : Alike prim o mine past time s s')
    (spares : Spares prim o mine later time s' (program prim c)) :
    Alike prim o mine later time (serve prim time (.call c) s).2 s' := by
  obtain ⟨same,kept,kept'⟩ := alike
  obtain ⟨_,same,kept⟩ := spares { s with now := time } ⟨rfl,{ same with },{ keptMono more kept with }⟩
  exact ⟨same,kept,keptMono more kept'⟩

theorem accountSpares {c : AccountCalls.Call} {later : List Request}
    (bearer : (Request.call (.account c)).credential.Other prim o mine)
    (strange : ∀ y ∈ c.minted, ¬ Mine prim mine (prim.digest y)) (old : ∀ y ∈ c.minted, Old prim later (prim.digest y)) :
    Spares prim o mine later time u (program prim (.account c)) := by
  intro v untouched
  rw [accountRun]
  have each : (AccountCalls.program prim c).Every (Apart prim o mine later) :=
    everyMono (foreignApart bearer strange old) (AccountCalls.everyBelongs prim c)
  exact keepsEvery (P := Apart prim o mine later) (fun _ _ => untouchedOp) each v untouched

/- A refused login changes the clock only. -/
theorem refusedServe {x : Step Int Request} (refused : Refused prim s x) :
    (serve prim x.time x.req s).2 = { s with now := x.time } := by
  obtain ⟨time,own,c⟩ := x
  cases c with
  | entry name => rfl
  | call c =>
    cases c with
    | account c =>
      cases c with
      | login name password minted =>
        have answer : ((program prim (.account (.login name password minted))).run (exec prim) { s with now := time }).1 =
            .account (.ok (.minted none)) := Reply.call.inj refused
        change ((program prim (.account (.login name password minted))).run (exec prim) { s with now := time }).2 = _
        rw [accountRun] at answer ⊢
        have result := Answer.account.inj answer
        change ((Except.map AccountCalls.Reply.minted <$> (login prim name password minted).run).run _ _).1 = _ at result
        change ((Except.map AccountCalls.Reply.minted <$> (login prim name password minted).run).run _ _).2 = _
        rw [runMap] at result ⊢
        refine refusedLogin ?_
        revert result
        cases ((login prim name password minted).run.run (AccountStore.exec prim) { s with now := time }).1 with
        | error e => exact fun wrong => by cases wrong
        | ok token => exact fun same => congrArg Except.ok (AccountCalls.Reply.minted.inj (Except.ok.inj same))
      | _ => exact refused.elim
    | _ => exact refused.elim

theorem foreignServe {x : Step Int Request} (foreign : Foreign prim o mine s x) (alike : Alike prim o mine past x.time s s') :
    Alike prim o mine (past ++ [x.req]) x.time (serve prim x.time x.req s).2 s' := by
  obtain ⟨time,own,c⟩ := x
  have more : past ⊆ past ++ [c] := List.subset_append_left _ _
  have still : Alike prim o mine (past ++ [c]) time { s with now := time } s' :=
    ⟨{ alike.1 with },{ keptMono more alike.2.1 with },keptMono more alike.2.2⟩
  obtain ⟨bearer,strange⟩ := foreign
  cases c with
  | entry name => exact still
  | call c =>
    cases c with
    | poll token device peers =>
      exact servedSpares more alike (keepsMap (pollSpares (bearer.resolve_right id) device peers))
    | status token target => exact servedSpares more alike (keepsMap (statusSpares (bearer.resolve_right id) target))
    | wake token target => exact servedSpares more alike (keepsMap (wakeSpares (bearer.resolve_right id) target))
    | account c =>
      have old : ∀ y ∈ c.minted, Old prim (past ++ [.call (.account c)]) (prim.digest y) := fun y inside =>
        ⟨_,List.mem_append_right _ (List.mem_singleton_self _),y,inside,rfl⟩
      by_cases refused : Refused prim s ⟨time,own,.call (.account c)⟩
      · rw [refusedServe refused]
        exact still
      · exact servedSpares more alike (accountSpares (bearer.resolve_right refused) strange old)

theorem unwinds (prim : Primitives) (o : String) (mine : List String) :
    Unwinds (serve prim) (Admitted prim o mine) (Alike prim o mine) where
  later := fun _ _ _ _ _ order alike => ⟨sameLater order alike.1,alike.2⟩
  own := fun _ _ _ _ admitted owned alike => ownServe admitted.fresh (admitted.own owned) alike
  foreign := fun _ _ _ _ admitted other alike => foreignServe (admitted.foreign other) alike

end Requests

/- Two runs that agree on the requests of an account answer them alike, whatever the others do. -/
theorem othersUnseen {prim : Primitives} {o : String} {mine : List String} {now : Int} {left right : List (Step Int Request)}
    (first : Meets (serve prim) (Admitted prim o mine) [] (Store.init now) now left)
    (second : Meets (serve prim) (Admitted prim o mine) [] (Store.init now) now right)
    (agree : left.filter Step.own = right.filter Step.own) :
    answers (serve prim) (Store.init now) left = answers (serve prim) (Store.init now) right :=
  sameAnswers (unwinds prim o mine) first second
    ⟨sameRefl,⟨fun _ inside => absurd inside notMemEmpty,fun _ inside => absurd inside notMemEmpty⟩,
      ⟨fun _ inside => absurd inside notMemEmpty,fun _ inside => absurd inside notMemEmpty⟩⟩ agree

def token : String := AccountCalls.mintedA.text
def otherToken : String := AccountCalls.mintedB.text
def pass : String := AccountCalls.mintedC.text

def secrets : List String := [token,pass]

def own (time : Int) (c : Call) : Step Int Request := ⟨time,true,.call c⟩
def foreign (time : Int) (c : Call) : Step Int Request := ⟨time,false,.call c⟩

/- Another account has devices of the same names and asks for the same target; it is deleted before
the ticket is redeemed. -/
def crowded : List (Step Int Request) := [
  own 100 (.account (.createUser "tester" "long-test-password" "salt")),
  foreign 100 (.account (.createUser "other" "another-test-password" "salt")),
  own 110 (.account (.login "tester" "long-test-password" AccountCalls.mintedA)),
  foreign 111 (.account (.login "other" "another-test-password" AccountCalls.mintedB)),
  foreign 112 (.poll otherToken "target" []),own 120 (.poll token "target" []),
  foreign 150 (.poll otherToken "helper" ["target"]),own 160 (.poll token "helper" ["target"]),
  foreign 160 (.wake otherToken "target"),own 161 (.wake token "target"),
  foreign 161 (.poll otherToken "helper" ["target"]),own 162 (.poll token "helper" ["target"]),
  ⟨163,true,.entry "tester"⟩,own 164 (.account (.ticket token "relay" AccountCalls.mintedC)),
  foreign 165 (.account (.deleteUser "other")),own 166 (.account (.redeem pass "relay")),
  own 167 (.account (.user token))]

theorem crowdUnseen : answers (serve AccountCalls.plain) (Store.init 100) crowded =
      answers (serve AccountCalls.plain) (Store.init 100) (crowded.filter Step.own) ∧
    answers (serve AccountCalls.plain) (Store.init 100) crowded = [
      .call (.account (.ok .done)),.call (.account (.ok (.minted (some token)))),.call (.targets (.ok [])),
      .call (.targets (.ok [])),.call (.state (.ok "queued")),.call (.targets (.ok ["target"])),
      .entry (some ⟨"tester",true,1⟩),.call (.account (.ok (.minted (some pass)))),
      .call (.account (.ok (.redeemed true))),.call (.account (.ok (.name (some "tester"))))] := by
  have first : Meets (serve AccountCalls.plain) (Admitted AccountCalls.plain "tester" secrets) [] (Store.init 100) 100
      crowded := by decide +kernel
  have second : Meets (serve AccountCalls.plain) (Admitted AccountCalls.plain "tester" secrets) [] (Store.init 100) 100
      (crowded.filter Step.own) := by decide +kernel
  exact ⟨othersUnseen first second (by simp),by decide +kernel⟩

end OpenuuServer.AccountIsolation
