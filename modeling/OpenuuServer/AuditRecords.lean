import OpenuuServer.RequestLimits
import OpenuuServer.UniqueTable

/-! Audit records of connections, posted by the controlled peers. A record is a JSON object; some of
its members have columns of their own, the others stay together in a note. -/
namespace OpenuuServer.AuditRecords
open RequestLimits UniqueTable
open IpText (IpAddr)

abbrev Bytes := List UInt8

/- A number with a fraction or an exponent is represented by its text. -/
inductive Number where
  | posInt (n : UInt64)
  | negInt (n : Int64)
  | float (text : String)
  deriving DecidableEq

inductive Value where
  | null
  | bool (b : Bool)
  | number (n : Number)
  | string (s : String)
  | array (items : List Value)
  | object (members : List (String × Value))

/- The first member of that name; a parsed object has each name once. -/
def member (members : List (String × Value)) (key : String) : Option Value :=
  (members.find? fun m => m.1 = key).map Prod.snd

def Value.get (v : Value) (key : String) : Option Value :=
  match v with
  | .object members => member members key
  | _ => none

def Value.asI64 : Value → Option Int
  | .number (.posInt n) => if n.toNat < 9223372036854775808 then some n.toNat else none
  | .number (.negInt n) => some n.toInt
  | _ => none

def Value.asStr : Value → Option String
  | .string s => some s
  | _ => none

/- JSON as a library reads and writes it. -/
structure Json where
  parse : Bytes → Option Value
  print : Value → String

def cut (s : String) : String := .ofList (s.toList.take 256)

def shown (j : Json) : Value → Option String
  | .string s => some (cut s)
  | .null => none
  | other => some (cut (j.print other))

def text (j : Json) (v : Value) (key : String) : Option String := (v.get key).bind (shown j)

structure Row where
  nonce : String
  id : String
  peerId : Option String
  action : Option String
  connId : Option Int
  sessionId : Option Int
  note : String
  fromIp : String
  receivedAt : Nat
  deriving DecidableEq

abbrev Rows := Table Row fun a b => a.nonce = b.nonce

structure Audit where
  rate : Rates
  rows : Rows

def Audit.empty : Audit := ⟨∅,.empty⟩

inductive Answer where
  | ok
  | noContent
  | refused (status : Nat) (message : String)
  deriving DecidableEq

/- A post, with what the peer table and the database have to say while it is handled. -/
structure Post where
  now : Nat
  ip : IpAddr
  body : Bytes
  registered : String → Bool
  fails : Bool

def maxBody : Nat := 4096

/- The members that do not stay in the note. -/
def moved : List String := ["nonce","id","ip","action","conn_id","session_id"]

def Value.note : Value → Value
  | .object members => .object (members.filter fun m => m.1 ∉ moved)
  | other => other

/- "peer" arrives as [id, name] on the logon record. -/
def peerId (v : Value) : Option String :=
  match v.get "peer" with
  | some (.array (first :: _)) => first.asStr.map cut
  | _ => none

def row (j : Json) (p : Post) (v : Value) (nonce id : String) : Row where
  nonce := nonce
  id := id
  peerId := peerId v
  action := text j v "action"
  connId := (v.get "conn_id").bind Value.asI64
  sessionId := (v.get "session_id").bind Value.asI64
  note := j.print v.note
  fromIp := p.ip.text
  receivedAt := p.now

/- INSERT OR IGNORE -/
def store (rows : Rows) (r : Row) : Rows := (rows.insert r).getD rows

def conn (j : Json) (p : Post) (s : Audit) : Answer × Audit :=
  let (limited,rate) := overLimit p.now p.ip s.rate
  let s := { s with rate := rate }
  if limited then (.refused 429 "Try again later",s)
  else if maxBody < p.body.length then (.refused 413 "Audit record too large",s)
  else match j.parse p.body with
  | none => (.refused 400 "Invalid audit record",s)
  | some v =>
    match (text j v "nonce").filter (!·.isEmpty),(text j v "id").filter (!·.isEmpty) with
    | some nonce,some id =>
      if !p.registered id then (.noContent,s)
      else if p.fails then (.refused 503 "Audit store unavailable",s)
      else (.ok,{ s with rows := store s.rows (row j p v nonce id) })
    | _,_ => (.refused 400 "Missing nonce or id",s)

section Posts
variable {j : Json} {p : Post} {s : Audit}

/- A record that is let in: what it is and what becomes of it. -/
structure Admitted (j : Json) (p : Post) (s s' : Audit) (v : Value) (nonce id : String) : Prop where
  parsed : j.parse p.body = some v
  key : text j v "nonce" = some nonce
  reporter : text j v "id" = some id
  rows : s'.rows = store s.rows (row j p v nonce id)

def Outcome (j : Json) (p : Post) (s : Audit) (done : Answer × Audit) : Prop :=
  done.1 ≠ .ok ∧ done.2.rows = s.rows ∨ done.1 = .ok ∧ ∃ v nonce id, Admitted j p s done.2 v nonce id

theorem connOutcome (j : Json) (p : Post) (s : Audit) : Outcome j p s (conn j p s) := by
  have refuses : ∀ (a : Answer) (rate : Rates), a ≠ .ok → Outcome j p s (a,{ s with rate := rate }) :=
    fun a rate other => .inl ⟨other,rfl⟩
  unfold conn
  generalize overLimit p.now p.ip s.rate = done
  obtain ⟨limited,rate⟩ := done
  dsimp only
  split
  · exact refuses _ rate Answer.noConfusion
  · split
    · exact refuses _ rate Answer.noConfusion
    · split
      · exact refuses _ rate Answer.noConfusion
      · rename_i v parsed
        split
        · rename_i nonce id key reporter
          split
          · exact refuses _ rate Answer.noConfusion
          · split
            · exact refuses _ rate Answer.noConfusion
            · exact .inr ⟨rfl,v,nonce,id,parsed,(Option.filter_eq_some_iff.mp key).1,
                (Option.filter_eq_some_iff.mp reporter).1,rfl⟩
        · exact refuses _ rate Answer.noConfusion

/- Either the key is taken and the row is left out, or the row is added. -/
theorem storeCases (rows : Rows) (r : Row) : (∃ a ∈ rows.rows, a.nonce = r.nonce) ∧ store rows r = rows ∨
    (∀ a ∈ rows.rows, a.nonce ≠ r.nonce) ∧ (store rows r).rows = rows.rows ++ [r] := by
  unfold store Table.insert
  by_cases fresh : ∀ a ∈ rows.rows, ¬ a.nonce = r.nonce
  · rw [dif_pos fresh]
    exact .inr ⟨fresh,rfl⟩
  · rw [dif_neg fresh]
    exact .inl ⟨by simpa using fresh,rfl⟩

end Posts

section Repeats
variable {j : Json}

/- The row has the record's own values. -/
structure Holds (j : Json) (v : Value) (r : Row) : Prop where
  id : text j v "id" = some r.id
  action : r.action = text j v "action"
  connId : r.connId = (v.get "conn_id").bind Value.asI64
  sessionId : r.sessionId = (v.get "session_id").bind Value.asI64

/- What came of the posts so far: the tables, the records that were answered with 200, and those of
them that were put into the table. -/
structure History where
  audit : Audit
  answered : List Value
  stored : List Value

def stores (j : Json) (p : Post) (s : Audit) : Bool := decide (s.rows.rows.length < (conn j p s).2.rows.rows.length)

def History.next (j : Json) (h : History) (p : Post) : History :=
  let record := if (conn j p h.audit).1 = .ok then (j.parse p.body).toList else []
  ⟨(conn j p h.audit).2,h.answered ++ record,if stores j p h.audit then h.stored ++ record else h.stored⟩

def history (j : Json) (posts : List Post) : History := posts.foldl (History.next j) ⟨.empty,[],[]⟩

@[simp] theorem historyLast (posts : List Post) (p : Post) : history j (posts ++ [p]) = (history j posts).next j p := by
  simp [history]

/- A record answered with 200 is in the table, or it was left out for its own sake. -/
structure Honoured (j : Json) (h : History) (p : Post) (v : Value) : Prop where
  held : ∃ r ∈ (conn j p h.audit).2.rows.rows, Holds j v r
  repeated : stores j p h.audit = false → v ∈ h.stored

def AllHonoured (j : Json) (posts : List Post) : Prop :=
  ∀ before p after v, posts = before ++ p :: after → (conn j p (history j before).audit).1 = .ok →
    j.parse p.body = some v → Honoured j (history j before) p v

/- The stored records, in the order of their rows. -/
structure Kept (j : Json) (h : History) : Prop where
  rows : List.Forall₂ (fun v r => text j v "nonce" = some r.nonce ∧ Holds j v r) h.stored h.audit.rows.rows
  known : ∀ v ∈ h.answered, ∃ v' ∈ h.stored, text j v' "nonce" = text j v "nonce"
  among : ∀ v ∈ h.stored, v ∈ h.answered

/- What a post does to the history. -/
inductive Taken (j : Json) (h : History) (p : Post) : Prop where
  | refused (answer : (conn j p h.audit).1 ≠ .ok) (rows : (h.next j p).audit.rows = h.audit.rows)
      (answered : (h.next j p).answered = h.answered) (stored : (h.next j p).stored = h.stored)
  | ignored {v : Value} {r : Row} (answer : (conn j p h.audit).1 = .ok) (parsed : j.parse p.body = some v)
      (key : text j v "nonce" = some r.nonce) (holds : Holds j v r) (taken : ∃ a ∈ h.audit.rows.rows, a.nonce = r.nonce)
      (stores : stores j p h.audit = false) (rows : (h.next j p).audit.rows = h.audit.rows)
      (answered : (h.next j p).answered = h.answered ++ [v]) (stored : (h.next j p).stored = h.stored)
  | inserted {v : Value} {r : Row} (answer : (conn j p h.audit).1 = .ok) (parsed : j.parse p.body = some v)
      (key : text j v "nonce" = some r.nonce) (holds : Holds j v r) (stores : stores j p h.audit = true)
      (rows : (h.next j p).audit.rows.rows = h.audit.rows.rows ++ [r])
      (answered : (h.next j p).answered = h.answered ++ [v]) (stored : (h.next j p).stored = h.stored ++ [v])

theorem postTaken (h : History) (p : Post) : Taken j h p := by
  rcases connOutcome j p h.audit with ⟨answer,rows⟩ | ⟨answer,v,nonce,id,admitted⟩
  · have still : stores j p h.audit = false := by
      rw [stores,rows]
      exact decide_eq_false (Nat.lt_irrefl _)
    exact .refused answer rows (by simp [History.next,answer]) (by simp [History.next,still])
  · have holds : Holds j v (row j p v nonce id) := ⟨admitted.reporter,rfl,rfl,rfl⟩
    have answered : (h.next j p).answered = h.answered ++ [v] := by simp [History.next,answer,admitted.parsed]
    rcases storeCases h.audit.rows (row j p v nonce id) with ⟨taken,same⟩ | ⟨_,added⟩
    · have rows : (conn j p h.audit).2.rows = h.audit.rows := admitted.rows.trans same
      have still : stores j p h.audit = false := by
        rw [stores,rows]
        exact decide_eq_false (Nat.lt_irrefl _)
      exact .ignored answer admitted.parsed admitted.key holds taken still rows answered (by simp [History.next,still])
    · have rows : (conn j p h.audit).2.rows.rows = h.audit.rows.rows ++ [row j p v nonce id] := by rw [admitted.rows,added]
      have grown : stores j p h.audit = true := by
        rw [stores,rows,List.length_append]
        exact decide_eq_true (Nat.lt_succ_self _)
      exact .inserted answer admitted.parsed admitted.key holds grown rows answered
        (by simp [History.next,grown,answer,admitted.parsed])

/- A row has a stored record behind it. -/
theorem recordOf {h : History} (kept : Kept j h) {r : Row} (inside : r ∈ h.audit.rows.rows) :
    ∃ v ∈ h.stored, text j v "nonce" = some r.nonce ∧ Holds j v r := by
  obtain ⟨i,low,rfl⟩ := List.getElem_of_mem inside
  have same := kept.rows.length_eq
  exact ⟨h.stored[i],List.getElem_mem _,kept.rows.get (by omega) low⟩

theorem rowOf {h : History} (kept : Kept j h) {v : Value} (inside : v ∈ h.stored) :
    ∃ r ∈ h.audit.rows.rows, text j v "nonce" = some r.nonce ∧ Holds j v r := by
  obtain ⟨i,low,rfl⟩ := List.getElem_of_mem inside
  have same := kept.rows.length_eq
  exact ⟨h.audit.rows.rows[i],List.getElem_mem _,kept.rows.get low (by omega)⟩

theorem keptNext {h : History} (kept : Kept j h) (p : Post) : Kept j (h.next j p) := by
  cases postTaken h p with
  | refused _ rows answered stored =>
    constructor
    · rw [rows,stored]
      exact kept.rows
    · rw [answered,stored]
      exact kept.known
    · rw [answered,stored]
      exact kept.among
  | @ignored v r _ _ key _ taken _ rows answered stored =>
    constructor
    · rw [rows,stored]
      exact kept.rows
    · rw [answered,stored]
      intro v' inside
      rcases List.mem_append.mp inside with old | new
      · exact kept.known v' old
      · obtain ⟨a,there,same⟩ := taken
        obtain ⟨v'',stored,key',_⟩ := recordOf kept there
        rw [List.mem_singleton.mp new]
        exact ⟨v'',stored,by rw [key',key,same]⟩
    · rw [answered,stored]
      exact fun v' inside => List.mem_append_left _ (kept.among v' inside)
  | @inserted v r _ _ key holds _ rows answered stored =>
    constructor
    · rw [rows,stored]
      exact List.rel_append kept.rows (.cons ⟨key,holds⟩ .nil)
    · rw [answered,stored]
      intro v' inside
      rcases List.mem_append.mp inside with old | new
      · obtain ⟨v'',stored,same⟩ := kept.known v' old
        exact ⟨v'',List.mem_append_left _ stored,same⟩
      · exact ⟨v',List.mem_append_right _ new,rfl⟩
    · rw [answered,stored]
      intro v' inside
      rcases List.mem_append.mp inside with old | new
      · exact List.mem_append_left _ (kept.among v' old)
      · exact List.mem_append_right _ new

theorem keptAll (posts : List Post) : Kept j (history j posts) := by
  induction posts using List.reverseRecOn with
  | nil => exact ⟨.nil,fun v wrong => (by cases wrong),fun v wrong => (by cases wrong)⟩
  | append_singleton posts p ih =>
    rw [historyLast]
    exact keptNext ih p

theorem allHonouredLast {posts : List Post} {p : Post} : AllHonoured j (posts ++ [p]) ↔ AllHonoured j posts ∧
    ∀ v, (conn j p (history j posts).audit).1 = .ok → j.parse p.body = some v → Honoured j (history j posts) p v := by
  constructor
  · intro all
    refine ⟨fun before q after v parts => ?_,fun v => all posts p [] v rfl⟩
    exact all before q (after ++ [p]) v (by rw [parts]; simp)
  · intro both before q after v parts
    cases after using List.reverseRecOn with
    | nil =>
      obtain ⟨rfl,last⟩ := List.append_inj' parts rfl
      cases last
      exact both.2 v
    | append_singleton after last =>
      have longer : posts ++ [p] = (before ++ q :: after) ++ [last] := by rw [parts]; simp
      exact both.1 before q after v (List.append_inj' longer rfl).1

/- Where every record is honoured, every record that was answered with 200 is stored. -/
theorem answeredStored {posts : List Post} (all : AllHonoured j posts) :
    ∀ v ∈ (history j posts).answered, v ∈ (history j posts).stored := by
  induction posts using List.reverseRecOn with
  | nil => exact fun v wrong => wrong
  | append_singleton posts p ih =>
    obtain ⟨before,last⟩ := allHonouredLast.mp all
    have earlier := ih before
    rw [historyLast]
    cases postTaken (history j posts) p with
    | refused _ _ answered stored =>
      rw [answered,stored]
      exact earlier
    | @ignored v r answer parsed _ _ _ still _ answered stored =>
      rw [answered,stored]
      intro v' inside
      rcases List.mem_append.mp inside with old | new
      · exact earlier v' old
      · rw [List.mem_singleton.mp new]
        exact (last v answer parsed).repeated still
    | inserted _ _ _ _ _ _ answered stored =>
      rw [answered,stored]
      intro v' inside
      rcases List.mem_append.mp inside with old | new
      · exact List.mem_append_left _ (earlier v' old)
      · exact List.mem_append_right _ new

/- Two stored records with one key are one record. -/
theorem storedOnce {h : History} (kept : Kept j h) {v v' : Value} (left : v ∈ h.stored) (right : v' ∈ h.stored)
    (same : text j v "nonce" = text j v' "nonce") : v = v' := by
  obtain ⟨i,low,rfl⟩ := List.getElem_of_mem left
  obtain ⟨k,low',rfl⟩ := List.getElem_of_mem right
  have length := kept.rows.length_eq
  have keyed := (kept.rows.get low (by omega)).1
  have keyed' := (kept.rows.get low' (by omega)).1
  simp only [List.get_eq_getElem] at keyed keyed'
  rw [keyed,keyed'] at same
  have nonces := Option.some.inj same
  have apart := List.pairwise_iff_getElem.mp h.audit.rows.unique
  rcases Nat.lt_trichotomy i k with less | equal | more
  · exact absurd nonces (apart i k (by omega) (by omega) less)
  · subst equal
    rfl
  · exact absurd nonces.symm (apart k i (by omega) (by omega) more)

/- All records answered with 200 are honoured exactly when no two different ones have the same key. -/
theorem honouredIfApart (posts : List Post) : AllHonoured j posts ↔
    ∀ v ∈ (history j posts).answered, ∀ v' ∈ (history j posts).answered, text j v "nonce" = text j v' "nonce" → v = v' := by
  constructor
  · intro all v left v' right same
    have stored := answeredStored all
    exact storedOnce (keptAll posts) (stored v left) (stored v' right) same
  · intro apart
    induction posts using List.reverseRecOn with
    | nil => exact fun before p after v wrong => absurd wrong (by simp)
    | append_singleton posts p ih =>
      rw [historyLast] at apart
      have kept := keptAll (j := j) posts
      rw [allHonouredLast]
      cases postTaken (history j posts) p with
      | refused answer _ answered _ =>
        rw [answered] at apart
        exact ⟨ih apart,fun v yes => absurd yes answer⟩
      | @ignored v r answer parsed key _ taken still rows answered _ =>
        rw [answered] at apart
        refine ⟨ih fun v left v' right => apart v (List.mem_append_left _ left) v' (List.mem_append_left _ right),?_⟩
        intro v' _ parsed'
        cases parsed.symm.trans parsed'
        obtain ⟨a,there,same⟩ := taken
        obtain ⟨v'',stored,key',_⟩ := recordOf kept there
        have one : v'' = v := apart v'' (List.mem_append_left _ (kept.among v'' stored)) v (List.mem_append_right _ (.head _))
          (by rw [key',key,same])
        rw [one] at stored
        obtain ⟨r',inside,_,holds⟩ := rowOf kept stored
        exact ⟨⟨r',by rw [show (conn j p (history j posts).audit).2.rows = _ from rows]; exact inside,holds⟩,fun _ => stored⟩
      | @inserted v r answer parsed _ holds grown rows answered _ =>
        rw [answered] at apart
        refine ⟨ih fun v left v' right => apart v (List.mem_append_left _ left) v' (List.mem_append_left _ right),?_⟩
        intro v' _ parsed'
        cases parsed.symm.trans parsed'
        refine ⟨⟨r,?_,holds⟩,fun still => ?_⟩
        · rw [show (conn j p (history j posts).audit).2.rows.rows = _ from rows]
          exact List.mem_append_right _ (.head _)
        · cases grown.symm.trans still

/- Two peers report with one nonce: what the second says is not kept. -/
def firstReport : Value := .object [("id",.string "100000002"),("nonce",.string "n-1"),("action",.string "new")]

def secondReport : Value := .object [("id",.string "100000003"),("nonce",.string "n-1"),("action",.string "close")]

/- A report with a member that stays in the note, and one whose connection is named by a text. -/
def openReport : Value :=
  .object [("id",.string "100000002"),("nonce",.string "n-2"),("conn_id",.number (.posInt 839)),("uuid",.string "dGVzdA==")]

def namedReport : Value :=
  .object [("id",.string "100000002"),("nonce",.string "n-3"),("conn_id",.string "839"),("uuid",.string "dGVzdA==")]

def reports : Json where
  parse
    | [1] => some firstReport
    | [2] => some secondReport
    | [3] => some openReport
    | [4] => some namedReport
    | _ => none
  print
    | .object [] => "\x7b\x7d"
    | _ => "\x7b\"uuid\":\"dGVzdA==\"\x7d"

def post (now : Nat) (body : Bytes) : Post := ⟨now,.v4 203 0 113 5,body,fun _ => true,false⟩

theorem secondLost : (conn reports (post 1 [2]) (history reports [post 0 [1]]).audit).1 = .ok ∧
    ¬ AllHonoured reports [post 0 [1],post 1 [2]] := by
  have answer : (conn reports (post 1 [2]) (history reports [post 0 [1]]).audit).1 = .ok := by decide
  have left : stores reports (post 1 [2]) (history reports [post 0 [1]]).audit = false := by decide
  refine ⟨answer,fun all => ?_⟩
  have stored : secondReport ∈ (history reports [post 0 [1]]).stored :=
    (all [post 0 [1]] (post 1 [2]) [] secondReport rfl answer rfl).repeated left
  have only : (history reports [post 0 [1]]).stored = [firstReport] := rfl
  rw [only,List.mem_singleton] at stored
  simp [firstReport,secondReport] at stored

end Repeats

section Columns
variable {j : Json} {p : Post} {s : Audit} {members : List (String × Value)}

def InColumn (x : Value) (column : Option Int) : Prop := x = .null ∧ column = none ∨ ∃ n, x.asI64 = some n ∧ column = some n

/- The columns of the members that do not stay in the note. -/
def InRow (j : Json) (r : Row) (key : String) (x : Value) : Prop :=
  match key with
  | "nonce" => shown j x = some r.nonce
  | "id" => shown j x = some r.id
  | "action" => shown j x = r.action
  | "conn_id" => InColumn x r.connId
  | "session_id" => InColumn x r.sessionId
  | _ => False

/- A row from which all members can be read back, but for the address the record claims. -/
structure ReadBack (j : Json) (members : List (String × Value)) (r : Row) : Prop where
  columns : ∀ key ∈ moved, key ≠ "ip" → ∀ x, member members key = some x → InRow j r key x
  note : ∃ rest, r.note = j.print (.object rest) ∧ (∀ key, key ∉ moved → member rest key = member members key) ∧
    ∀ key x, member members key = some x → member rest key = none → key ≠ "ip" → InRow j r key x

/- Neither of the two numbers is anything but an integer that fits, where there is one. -/
def Whole (members : List (String × Value)) : Prop :=
  ∀ key ∈ ["conn_id","session_id"], ∀ x, member members key = some x → x = .null ∨ x.asI64.isSome = true

theorem memberNote {key : String} (stays : key ∉ moved) :
    member (members.filter fun m => m.1 ∉ moved) key = member members key := by
  induction members with
  | nil => rfl
  | cons m members ih =>
    by_cases goes : m.1 ∈ moved
    · have other : ¬ m.1 = key := fun same => stays (same ▸ goes)
      rw [List.filter_cons_of_neg (by simpa using goes),ih]
      simp [member,other]
    · rw [List.filter_cons_of_pos (by simpa using goes)]
      by_cases same : m.1 = key
      · simp [member,same]
      · simpa [member,same] using ih

theorem columnWhole (x : Value) : InColumn x x.asI64 ↔ x = .null ∨ x.asI64.isSome = true := by
  constructor
  · intro held
    rcases held with ⟨null,_⟩ | ⟨n,number,_⟩
    · exact .inl null
    · exact .inr (by rw [number]; rfl)
  · intro whole
    rcases whole with null | number
    · exact .inl ⟨null,by rw [null]; rfl⟩
    · obtain ⟨n,same⟩ := Option.isSome_iff_exists.mp number
      exact .inr ⟨n,same,same⟩

theorem numberOf {name : String} {x : Value} (found : member members name = some x) :
    InColumn x (((Value.object members).get name).bind Value.asI64) ↔ x = .null ∨ x.asI64.isSome = true := by
  rw [← columnWhole,Value.get,found]
  rfl

/- What the row of an object holds of the members that leave the note. -/
theorem rowColumns {nonce id : String} (key : text j (.object members) "nonce" = some nonce)
    (reporter : text j (.object members) "id" = some id) (whole : Whole members) :
    ∀ name ∈ moved, name ≠ "ip" → ∀ x, member members name = some x → InRow j (row j p (.object members) nonce id) name x := by
  have texts : ∀ {name x}, member members name = some x → text j (.object members) name = shown j x := by
    intro name x found
    rw [text,Value.get,found]
    rfl
  intro name leaves apart x found
  simp only [moved,List.mem_cons,List.not_mem_nil,or_false] at leaves
  rcases leaves with rfl | rfl | rfl | rfl | rfl | rfl
  · exact (texts found).symm.trans key
  · exact (texts found).symm.trans reporter
  · exact absurd rfl apart
  · exact (texts found).symm
  · exact (numberOf found).mpr (whole "conn_id" (by simp) x found)
  · exact (numberOf found).mpr (whole "session_id" (by simp) x found)

theorem objectText {v : Value} {key shownAs : String} (found : text j v key = some shownAs) : ∃ members, v = .object members := by
  cases v with
  | object members => exact ⟨members,rfl⟩
  | _ => cases found

/- A stored object can be read back exactly when its two numbers are integers that fit. -/
theorem readBackWhole (stored : stores j p s = true) : ∃ members r, j.parse p.body = some (.object members) ∧
    (conn j p s).2.rows.rows = s.rows.rows ++ [r] ∧ (ReadBack j members r ↔ Whole members) := by
  have grown := of_decide_eq_true stored
  rcases connOutcome j p s with ⟨_,same⟩ | ⟨_,v,nonce,id,admitted⟩
  · rw [same] at grown
    exact absurd grown (Nat.lt_irrefl _)
  obtain ⟨members,rfl⟩ := objectText admitted.key
  rcases storeCases s.rows (row j p (.object members) nonce id) with ⟨_,same⟩ | ⟨_,added⟩
  · rw [admitted.rows,same] at grown
    exact absurd grown (Nat.lt_irrefl _)
  refine ⟨members,_,admitted.parsed,by rw [admitted.rows,added],?_⟩
  constructor
  · intro back name number x found
    simp only [List.mem_cons,List.not_mem_nil,or_false] at number
    rcases number with rfl | rfl
    · exact (numberOf found).mp (back.columns "conn_id" (by simp [moved]) (by decide) x found)
    · exact (numberOf found).mp (back.columns "session_id" (by simp [moved]) (by decide) x found)
  · intro whole
    have columns := rowColumns (p := p) admitted.key admitted.reporter whole
    refine ⟨columns,_,rfl,fun name stays => memberNote stays,fun name x found gone apart => ?_⟩
    by_cases leaves : name ∈ moved
    · exact columns name leaves apart x found
    · rw [memberNote leaves,found] at gone
      cases gone

/- A connection named by a text: the column stays empty, and the note does not have it either. -/
theorem namedLost : ∃ members r, reports.parse [4] = some (.object members) ∧
    (conn reports (post 0 [4]) .empty).2.rows.rows = [r] ∧ r.connId = none ∧ ¬ ReadBack reports members r := by
  refine ⟨_,_,rfl,rfl,rfl,fun back => ?_⟩
  have column := back.columns "conn_id" (by decide) (by decide) (.string "839") rfl
  rcases column with ⟨null,_⟩ | ⟨n,number,_⟩
  · cases null
  · cases number

theorem openReadBack : ∃ members r, reports.parse [3] = some (.object members) ∧
    (conn reports (post 0 [3]) .empty).2.rows.rows = [] ++ [r] ∧ ReadBack reports members r := by
  have stored : stores reports (post 0 [3]) .empty = true := by decide
  obtain ⟨members,r,parsed,rows,both⟩ := readBackWhole stored
  refine ⟨members,r,parsed,rows,both.mpr ?_⟩
  cases parsed
  intro name number x found
  simp only [List.mem_cons,List.not_mem_nil,or_false] at number
  rcases number with rfl | rfl
  · cases found
    exact .inr rfl
  · cases found

end Columns
end OpenuuServer.AuditRecords
