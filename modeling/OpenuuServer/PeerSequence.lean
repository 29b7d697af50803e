import OpenuuServer.PeerRegistry

/-! One call after another. What a call does to the registry is said once, in terms of the
entry of its id in memory and of the table; a history is any sequence of calls, restarts and
clock ticks. -/
namespace OpenuuServer.PeerSequence
open AtomicProgram UniqueTable IpText PeerRegistry

def entry (s : Registry) (id : String) : Option Peer := (s.map.lookup id).map s.peer

def row (s : Registry) (id : String) : Option PeerRow := s.table.rows.find? fun row => row.id = id

/- Every pointer of the map leads to a peer of its own. -/
structure Placed (s : Registry) : Prop where
  inside : ∀ id ref, s.map.lookup id = some ref → ref.number < s.heap.length
  apart : ∀ id id' ref ref', s.map.lookup id = some ref → s.map.lookup id' = some ref' →
    ref.number = ref'.number → id = id'

/- The state after a call for `id`: its entry, the table, and nothing else of either. -/
structure Moved (s s' : Registry) (id : String) (p : Option Peer) (t : Peers) : Prop where
  placed : Placed s'
  here : entry s' id = p
  there : ∀ other, other ≠ id → entry s' other = entry s other
  table : s'.table = t
  now : s'.now = s.now

theorem movedTrans {s s' s'' : Registry} {id p p' t t'} (first : Moved s s' id p t)
    (second : Moved s' s'' id p' t') : Moved s s'' id p' t' :=
  ⟨second.placed,second.here,fun other apart => (second.there other apart).trans (first.there other apart),
    second.table,second.now.trans first.now⟩

theorem notMoved {s : Registry} (placed : Placed s) (id : String) : Moved s s id (entry s id) s.table :=
  ⟨placed,rfl,fun _ _ => rfl,rfl,rfl⟩

theorem memRow {s : Registry} {r : PeerRow} : row s r.id = some r ↔ r ∈ s.table := by
  unfold row
  constructor
  · intro found
    exact List.mem_of_find?_eq_some found
  · intro member
    cases found : s.table.rows.find? fun other => other.id = r.id with
    | none =>
      have other := List.find?_eq_none.mp found r member
      simp at other
    | some other =>
      have id : other.id = r.id := by simpa using List.find?_some found
      have there : other ∈ s.table := List.mem_of_find?_eq_some found
      have symmetric : ∀ a b : PeerRow, a.guid = b.guid ∨ a.id = b.id → b.guid = a.guid ∨ b.id = a.id :=
        fun a b h => h.imp Eq.symm Eq.symm
      rw [sameRow symmetric there member (.inr id)]

theorem rowIs {s : Registry} {id : String} {r : PeerRow} (found : row s id = some r) : r ∈ s.table ∧ r.id = id :=
  ⟨List.mem_of_find?_eq_some found,by simpa using List.find?_some found⟩

theorem rowNone {s : Registry} {id : String} (none : row s id = none) : ∀ r ∈ s.table, r.id ≠ id := by
  intro r member
  simpa using List.find?_eq_none.mp none r member

theorem sameId {table : Peers} {a b : PeerRow} (left : a ∈ table) (right : b ∈ table) (same : a.id = b.id) :
    a = b :=
  sameRow (fun _ _ h => h.imp Eq.symm Eq.symm) left right (.inr same)

theorem sameGuid {table : Peers} {a b : PeerRow} (left : a ∈ table) (right : b ∈ table) (same : a.guid = b.guid) :
    a = b :=
  sameRow (fun _ _ h => h.imp Eq.symm Eq.symm) left right (.inl same)

/- The row and the columns that `update_pk` writes. -/
def newRow (rk : RegisterPk) (ip : String) (guid : Bytes) : PeerRow := ⟨guid,rk.id,rk.uuid,rk.pk,⟨ip⟩⟩

def rewrite (table : Peers) (guid : Bytes) (rk : RegisterPk) (ip : String) : Option Peers :=
  table.update (fun row => row.guid = guid) fun row => { row with id := rk.id,pk := rk.pk,info := ⟨ip⟩ }

theorem rowRewritten {table : Peers} {r : PeerRow} (member : r ∈ table) (rk : RegisterPk) (ip : String) (same : r.id = rk.id) :
    ∃ t, rewrite table r.guid rk ip = some t ∧
      ∀ a, a ∈ t ↔ a ∈ table ∧ a ≠ r ∨ a = { r with pk := rk.pk,info := ⟨ip⟩ } := by
  have mine : ∀ a ∈ table, a.guid = r.guid ↔ a = r :=
    fun a there => ⟨sameGuid there member,fun h => by rw [h]⟩
  have keeps : ∀ a ∈ table, (if decide (a.guid = r.guid) then { a with id := rk.id,pk := rk.pk,info := ⟨ip⟩ } else a) =
      if a = r then { r with pk := rk.pk,info := ⟨ip⟩ } else a := by
    intro a there
    by_cases here : a = r
    · subst here
      simp [same]
    · simp [mine a there,here]
  obtain ⟨t,done⟩ := updateSame (t := table) (p := fun a => a.guid = r.guid)
    (f := fun a => { a with id := rk.id,pk := rk.pk,info := ⟨ip⟩ }) <| by
      intro a left b right clash
      rw [keeps a left,keeps b right] at clash
      split at clash <;> split at clash <;> rename_i one two <;> simp_all
  refine ⟨t,done,fun a => ?_⟩
  rw [memUpdate done]
  constructor
  · rintro ⟨b,there,rfl⟩
    rw [keeps b there]
    by_cases here : b = r
    · rw [if_pos here]; exact .inr rfl
    · rw [if_neg here]; exact .inl ⟨there,here⟩
  · rintro (⟨there,apart⟩ | rfl)
    · exact ⟨a,there,by rw [keeps a there,if_neg apart]⟩
    · exact ⟨r,member,by rw [keeps r member,if_pos rfl]⟩

section Checks
variable {q : Peer} {rk : RegisterPk} {ip : String} {changed ipChanged : Bool}

theorem checkUuid (check : checkPeer q rk ip = some (changed,ipChanged)) : q.uuid = [] ∨ q.uuid = rk.uuid := by
  unfold checkPeer at check
  split at check
  · rename_i empty
    exact .inl (List.isEmpty_iff.mp empty)
  · split at check
    · rename_i same
      exact .inr same
    · contradiction

theorem checkOne (check : checkPeer q rk ip = some (changed,ipChanged)) (bound : q.uuid ≠ []) :
    q.info.ip = ip ∨ q.pk = rk.pk := by
  unfold checkPeer at check
  rw [if_neg (by simpa using bound)] at check
  split at check <;> try contradiction
  split at check <;> try contradiction
  rename_i apart
  by_contra both
  exact apart (not_or.mp both)

theorem checkSame (check : checkPeer q rk ip = some (false,ipChanged)) :
    q.uuid ≠ [] ∧ q.uuid = rk.uuid ∧ q.pk = rk.pk ∧ q.info.ip = ip := by
  unfold checkPeer at check
  split at check
  · simp at check
  · rename_i bound
    split at check <;> try contradiction
    rename_i same
    split at check <;> try contradiction
    simp only [Option.some.injEq,Prod.mk.injEq,Bool.or_eq_false_iff,decide_eq_false_iff_not,not_not] at check
    exact ⟨by simpa using bound,check.1.1.1,check.1.1.2,check.1.2⟩

theorem checkFresh (expired : Nat) : checkPeer (.fresh expired) rk ip = some (true,false) := rfl

end Checks

section Primitive
variable {s : Registry} {id : String}

theorem entryOf {ref : LockPeer} (found : s.map.lookup id = some ref) : entry s id = some (s.peer ref) := by
  rw [entry,found]; rfl

theorem allocated (placed : Placed s) (id : String) (p : Peer) :
    Moved s (s.allocate id p).2 id (some p) s.table ∧
      (s.allocate id p).2.map.lookup id = some (s.allocate id p).1 := by
  have new : (s.allocate id p).2.map.lookup id = some ⟨id,s.heap.length⟩ := AList.lookup_insert _
  have old : ∀ other, other ≠ id → (s.allocate id p).2.map.lookup other = s.map.lookup other :=
    fun other apart => AList.lookup_insert_ne apart
  have length : (s.allocate id p).2.heap.length = s.heap.length + 1 := by simp [Registry.allocate]
  refine ⟨⟨⟨?_,?_⟩,?_,?_,rfl,rfl⟩,new⟩
  · intro other ref found
    by_cases same : other = id
    · subst same
      cases Option.some.inj (new.symm.trans found)
      rw [length]
      exact Nat.lt_succ_self _
    · have bound := placed.inside other ref ((old other same).symm.trans found)
      omega
  · intro a b ref ref' left right same
    by_cases here : a = id <;> by_cases there : b = id
    · rw [here,there]
    · subst here
      cases Option.some.inj (new.symm.trans left)
      have bound := placed.inside b ref' ((old b there).symm.trans right)
      simp only at same
      omega
    · subst there
      cases Option.some.inj (new.symm.trans right)
      have bound := placed.inside a ref ((old a here).symm.trans left)
      simp only at same
      omega
    · exact placed.apart a b ref ref' ((old a here).symm.trans left) ((old b there).symm.trans right) same
  · rw [entryOf new]
    simp [Registry.peer,Registry.allocate]
  · intro other apart
    rw [entry,entry,old other apart]
    cases found : s.map.lookup other with
    | none => rfl
    | some ref =>
      have bound := placed.inside other ref found
      simp [Registry.peer,Registry.allocate,List.getElem?_append_left bound]

theorem amended (placed : Placed s) {ref : LockPeer} (found : s.map.lookup id = some ref) (f : Peer → Peer) :
    Moved s (s.amend ref f) id (some (f (s.peer ref))) s.table ∧ (s.amend ref f).map.lookup id = some ref := by
  have bound := placed.inside id ref found
  refine ⟨⟨⟨?_,placed.apart⟩,?_,?_,rfl,rfl⟩,found⟩
  · intro other ref' there
    simpa [Registry.amend] using placed.inside other ref' there
  · rw [entryOf (s := s.amend ref f) found]
    simp [Registry.peer,Registry.amend,bound]
  · intro other apart
    show (s.map.lookup other).map _ = (s.map.lookup other).map _
    cases there : s.map.lookup other with
    | none => rfl
    | some ref' =>
      have different : ref.number ≠ ref'.number := fun same => apart (placed.apart other id ref' ref there found same.symm)
      simp [Registry.peer,Registry.amend,different]

theorem tabled (placed : Placed s) (id : String) (t : Peers) : Moved s { s with table := t } id (entry s id) t :=
  ⟨⟨placed.inside,placed.apart⟩,rfl,fun _ _ => rfl,rfl,rfl⟩

end Primitive
section Calls
variable (expired : Nat → Nat)

/- The row that a read of the table returns; a read error counts as no row. -/
def readable (s : Registry) (id : String) (fails : Bool) : Option PeerRow := if fails then none else row s id

/- Where a `get` ends: with the entry, which it loads from the row if need be. -/
def got (s : Registry) (id : String) (fails : Bool) : Option Peer :=
  (entry s id).or ((readable s id fails).map (loaded (expired s.now)))

/- The peer a request works on: the one in memory, else the row, else a new one. -/
def found (s : Registry) (id : String) (fails : Bool) : Peer :=
  (got expired s id fails).getD (.fresh (expired s.now))

variable {expired} {s : Registry} {id : String} {fails : Bool}

theorem getRunSome {ref} (here : s.map.lookup id = some ref) :
    (PeerMap.get id fails).run (exec expired) s = (some ref,s) := by
  unfold PeerMap.get act
  simp only [performIs,bindOp,bindRet,Prog.run,exec,here,Option.isSome_some,if_pos,pureIsRet]

theorem getRunNone (here : s.map.lookup id = none) (absent : readable s id fails = none) :
    (PeerMap.get id fails).run (exec expired) s = (none,s) := by
  unfold PeerMap.get act
  cases fails with
  | true => simp [Prog.run,exec,here]
  | false =>
    have row : s.table.rows.find? (fun row => row.id = id) = none := absent
    simp only [performIs,bindOp,bindRet,Prog.run,exec,here,Option.isSome_none,Bool.false_eq_true,if_false,row,
      pureIsRet]

theorem getRunLoaded (here : s.map.lookup id = none) {r} (there : readable s id fails = some r) :
    (PeerMap.get id fails).run (exec expired) s =
      (some (s.allocate id (loaded (expired s.now) r)).1,(s.allocate id (loaded (expired s.now) r)).2) := by
  have reads : fails = false := by
    cases fails with
    | true => simp [readable] at there
    | false => rfl
  subst reads
  have row : s.table.rows.find? (fun row => row.id = id) = some r := there
  unfold PeerMap.get act
  simp only [performIs,bindOp,bindRet,Prog.run,exec,here,Option.isSome_none,Bool.false_eq_true,if_false,row,
    pureIsRet]

theorem getRun (expired : Nat → Nat) (placed : Placed s) (id : String) (fails : Bool) :
    Moved s ((PeerMap.get id fails).run (exec expired) s).2 id (got expired s id fails) s.table ∧
      ((PeerMap.get id fails).run (exec expired) s).2.map.lookup id =
        ((PeerMap.get id fails).run (exec expired) s).1 := by
  have still := notMoved placed id
  cases here : s.map.lookup id with
  | some ref =>
    rw [getRunSome here,got,entryOf here]
    rw [entryOf here] at still
    exact ⟨still,here⟩
  | none =>
    have absent : entry s id = none := by rw [entry,here]; rfl
    cases there : readable s id fails with
    | none =>
      rw [getRunNone here there,got,absent,there]
      rw [absent] at still
      exact ⟨still,here⟩
    | some r =>
      rw [getRunLoaded here there,got,absent,there]
      exact allocated placed id _

theorem getOrRun (expired : Nat → Nat) (placed : Placed s) (id : String) (fails : Bool) :
    Moved s ((PeerMap.getOr id fails).run (exec expired) s).2 id (some (found expired s id fails)) s.table ∧
      ((PeerMap.getOr id fails).run (exec expired) s).2.map.lookup id =
        some ((PeerMap.getOr id fails).run (exec expired) s).1 := by
  obtain ⟨moved,lookup⟩ := getRun expired placed id fails
  unfold PeerMap.getOr act
  rw [runBind]
  generalize (PeerMap.get id fails).run (exec expired) s = result at moved lookup
  obtain ⟨ref,s'⟩ := result
  have there := moved.here
  cases ref with
  | some ref =>
    rw [entryOf lookup] at there
    have same : some (found expired s id fails) = got expired s id fails := by rw [found,← there]; rfl
    rw [same]
    exact ⟨moved,lookup⟩
  | none =>
    rw [entry,lookup] at there
    have same : found expired s id fails = .fresh (expired s'.now) := by rw [found,← there,moved.now]; rfl
    rw [same]
    have new := allocated moved.placed id (.fresh (expired s'.now))
    have inserted : exec expired (.getOrInsert id) s' = s'.allocate id (.fresh (expired s'.now)) := by
      simp only [exec]
      rw [show s'.map.lookup id = none from lookup]
    simp only [performIs,Prog.run,inserted]
    rw [moved.table] at new
    exact ⟨movedTrans moved new.1,new.2⟩

/- What `update_pk` leaves behind, from the guid of the entry and the table before it. -/
inductive Stored (guid : Bytes) (table : Peers) (rk : RegisterPk) (ip : String) (newGuid : Bytes) (out : Outage) :
    Bytes → Peers → Prop where
  | inserted {t} (first : guid = []) (works : out.insertPeer = false)
      (done : table.insert (newRow rk ip newGuid) = some t) : Stored guid table rk ip newGuid out newGuid t
  | notInserted (first : guid = [])
      (failed : out.insertPeer = true ∨ table.insert (newRow rk ip newGuid) = none) :
    Stored guid table rk ip newGuid out [] table
  | updated {t} (again : guid ≠ []) (works : out.updatePk = false)
      (done : rewrite table guid rk ip = some t) : Stored guid table rk ip newGuid out guid t
  | notUpdated (again : guid ≠ []) (failed : out.updatePk = true ∨ rewrite table guid rk ip = none) :
    Stored guid table rk ip newGuid out guid table

def written (p : Peer) (rk : RegisterPk) (addr : SocketAddr) (now : Nat) (guid : Bytes) : Peer :=
  { p.register addr rk.uuid rk.pk addr.ip.text now with guid := guid }

theorem updatePkRun (expired : Nat → Nat) (placed : Placed s) {ref} (lookup : s.map.lookup id = some ref)
    (rk : RegisterPk) (addr : SocketAddr) (newGuid : Bytes) (out : Outage)
    (mine : rk.id = id) : ∃ guid t, Stored (s.peer ref).guid s.table rk addr.ip.text newGuid out guid t ∧
      Moved s ((PeerMap.updatePk rk.id ref addr rk.uuid rk.pk addr.ip.text newGuid out).run (exec expired) s).2
        id (some (written (s.peer ref) rk addr s.now guid)) t := by
  subst mine
  obtain ⟨moved,lookup'⟩ := amended placed lookup fun p => p.register addr rk.uuid rk.pk addr.ip.text s.now
  unfold PeerMap.updatePk act
  simp only [performIs,bindOp,bindRet,Prog.run,exec]
  generalize updated : (s.amend ref fun p => p.register addr rk.uuid rk.pk addr.ip.text s.now) = s' at moved lookup' ⊢
  have peer : some (s'.peer ref) = some ((s.peer ref).register addr rk.uuid rk.pk addr.ip.text s.now) := by
    rw [← entryOf lookup']
    exact moved.here
  by_cases first : (s.peer ref).guid = []
  · have same : written (s.peer ref) rk addr s.now [] = (s.peer ref).register addr rk.uuid rk.pk addr.ip.text s.now := by
      simp [written,Peer.register,first]
    simp only [first,List.isEmpty_nil,if_true]
    cases fails : out.insertPeer with
    | true =>
      refine ⟨[],s.table,.notInserted rfl (.inl fails),?_⟩
      rw [same]
      exact moved
    | false =>
      cases done : s.table.insert (newRow rk addr.ip.text newGuid) with
      | none =>
        have insert : exec expired (.dbInsertPeer rk.id rk.uuid rk.pk ⟨addr.ip.text⟩ newGuid false) s' =
            (.error .constraint,s') := by
          simp only [exec,moved.table]
          rw [show s.table.insert ⟨newGuid,rk.id,rk.uuid,rk.pk,⟨addr.ip.text⟩⟩ = none from done]
          rfl
        refine ⟨[],s.table,.notInserted rfl (.inr done),?_⟩
        rw [same]
        simp only [Prog.run,insert]
        exact moved
      | some t =>
        have insert : exec expired (.dbInsertPeer rk.id rk.uuid rk.pk ⟨addr.ip.text⟩ newGuid false) s' =
            (.ok newGuid,{ s' with table := t }) := by
          simp only [exec,moved.table]
          rw [show s.table.insert ⟨newGuid,rk.id,rk.uuid,rk.pk,⟨addr.ip.text⟩⟩ = some t from done]
          rfl
        refine ⟨newGuid,t,.inserted rfl fails done,?_⟩
        simp only [Prog.run,insert]
        have tabled := tabled moved.placed rk.id t
        obtain ⟨last,_⟩ := amended (s := { s' with table := t }) tabled.placed lookup' fun p => { p with guid := newGuid }
        have whole := movedTrans moved (movedTrans tabled last)
        rw [show ({ s' with table := t } : Registry).peer ref = s'.peer ref from rfl,Option.some.inj peer] at whole
        exact whole
  · have again : (s.peer ref).guid.isEmpty = false := by simpa using first
    simp only [again,Bool.false_eq_true,if_false]
    have same : written (s.peer ref) rk addr s.now (s.peer ref).guid =
        (s.peer ref).register addr rk.uuid rk.pk addr.ip.text s.now := rfl
    cases fails : out.updatePk with
    | true =>
      refine ⟨_,s.table,.notUpdated first (.inl fails),?_⟩
      rw [same]
      exact moved
    | false =>
      cases done : rewrite s.table (s.peer ref).guid rk addr.ip.text with
      | none =>
        have update : exec expired (.dbUpdatePk (s.peer ref).guid rk.id rk.pk ⟨addr.ip.text⟩ false) s' =
            (.error .constraint,s') := by
          unfold rewrite at done
          simp only [exec,moved.table,done]
          rfl
        refine ⟨_,s.table,.notUpdated first (.inr done),?_⟩
        rw [same]
        simp only [Prog.run,update]
        exact moved
      | some t =>
        have update : exec expired (.dbUpdatePk (s.peer ref).guid rk.id rk.pk ⟨addr.ip.text⟩ false) s' =
            (.ok (),{ s' with table := t }) := by
          unfold rewrite at done
          simp only [exec,moved.table,done]
          rfl
        refine ⟨_,t,.updated first fails done,?_⟩
        rw [same]
        simp only [Prog.run,update]
        have tabled := tabled moved.placed rk.id t
        rw [moved.here] at tabled
        exact movedTrans moved tabled

/- What a request does to the peer it found. -/
inductive Checked (q : Peer) (table : Peers) (now : Nat) (rk : RegisterPk) (addr : SocketAddr) (newGuid : Bytes)
    (out : Outage) : Result → Peer → Peers → Prop where
  | refused {r} (bad : r ≠ .ok) (cause : checkPeer q rk addr.ip.text = none ∨ 2 < q.regPk.1) :
    Checked q table now rk addr newGuid out r q table
  | unchanged {regPk ipChanged} (check : checkPeer q rk addr.ip.text = some (false,ipChanged)) :
    Checked q table now rk addr newGuid out .ok { q with regPk := regPk } table
  | changed {regPk ipChanged guid t} (check : checkPeer q rk addr.ip.text = some (true,ipChanged))
      (stored : Stored q.guid table rk addr.ip.text newGuid out guid t) :
    Checked q table now rk addr newGuid out .ok (written { q with regPk := regPk } rk addr now guid) t

theorem countedOften {regPk : Nat × Nat} {now : Nat} (often : countPk regPk now = none) : 2 < regPk.1 := by
  unfold countPk at often
  split at often <;> try contradiction
  split at often <;> try contradiction
  assumption

/- The last part of a request, from a state that differs only in how often the key was
registered. -/
theorem storeRun (expired : Nat → Nat) {s' : Registry} {ref} {regPk : Nat × Nat}
    (moved : Moved s s' id (some { s.peer ref with regPk := regPk }) s.table) (lookup : s'.map.lookup id = some ref)
    {rk addr} (newGuid : Bytes) (out : Outage) (mine : rk.id = id) {changed ipChanged : Bool}
    (check : checkPeer (s.peer ref) rk addr.ip.text = some (changed,ipChanged)) :
    ∃ p t, Checked (s.peer ref) s.table s.now rk addr newGuid out .ok p t ∧
      Moved s (if changed then
        ((PeerMap.updatePk rk.id ref addr rk.uuid rk.pk addr.ip.text newGuid out).run (exec expired) s').2
        else s') id (some p) t := by
  have peer : some (s'.peer ref) = some { s.peer ref with regPk := regPk } := by
    rw [← entryOf lookup]
    exact moved.here
  cases changed with
  | false => exact ⟨_,_,.unchanged check,moved⟩
  | true =>
    obtain ⟨guid,t,stored,last⟩ := updatePkRun expired moved.placed lookup rk addr newGuid out mine
    rw [Option.some.inj peer,moved.table] at stored
    rw [Option.some.inj peer,moved.now] at last
    exact ⟨_,t,.changed check stored,movedTrans moved last⟩

theorem registerAtRun (expired : Nat → Nat) (placed : Placed s) {ref} (lookup : s.map.lookup id = some ref)
    (rk : RegisterPk) (addr : SocketAddr) (newGuid : Bytes) (out : Outage)
    (mine : rk.id = id) : ∃ p t, Checked (s.peer ref) s.table s.now rk addr newGuid out
        ((registerAt rk addr newGuid out ref).run (exec expired) s).1 p t ∧
      Moved s ((registerAt rk addr newGuid out ref).run (exec expired) s).2 id (some p) t := by
  have still := notMoved placed id
  rw [entryOf lookup] at still
  unfold registerAt act
  simp only [performIs,bindOp,bindRet,Prog.run,exec]
  cases check : checkPeer (s.peer ref) rk addr.ip.text with
  | none => exact ⟨_,_,.refused (by simp [Prog.run]) (.inl check),still⟩
  | some verdict =>
    obtain ⟨changed,ipChanged⟩ := verdict
    simp only [Prog.run,exec]
    cases counted : countPk (s.peer ref).regPk s.now with
    | none => exact ⟨_,_,.refused (by simp [Prog.run]) (.inr (countedOften counted)),still⟩
    | some regPk =>
      simp only [Prog.run,exec]
      obtain ⟨moved,lookup'⟩ := amended placed lookup fun p => { p with regPk := regPk }
      generalize (s.amend ref fun p => { p with regPk := regPk }) = s' at moved lookup' ⊢
      -- the record of IP changes is kept apart from the peers
      have noted : ∀ changes, Moved s { s' with ipChanges := changes } id
          (some { s.peer ref with regPk := regPk }) s.table :=
        fun changes => ⟨⟨moved.placed.inside,moved.placed.apart⟩,moved.here,moved.there,moved.table,moved.now⟩
      cases ipChanged with
      | false =>
        have last := storeRun expired moved lookup' newGuid out mine check
        cases changed with
        | false => exact last
        | true => simpa only [if_true,Bool.false_eq_true,if_false,runBind,pureIsRet,Prog.run] using last
      | true =>
        have last := storeRun expired
          (noted (changedIp s'.now s'.ipChanges rk.id addr.ip.text)) lookup' newGuid out mine check
        cases changed with
        | false => exact last
        | true => simpa only [if_true,Prog.run,exec,runBind,pureIsRet] using last

variable (expired s)

def Passes (rk : RegisterPk) (addr : SocketAddr) : Prop :=
  6 ≤ rk.id.utf8ByteSize ∧ (blocked s.now s.ipBlocker addr.ip.text rk.id).1 = true

/- Everything a RegisterPk can come to: the answer, the entry of its id and the table. -/
inductive Registered (rk : RegisterPk) (addr : SocketAddr) (newGuid : Bytes) (out : Outage) :
    Result → Option Peer → Peers → Prop where
  | early {r} (held : ¬ Passes s rk addr) (bad : r ≠ .ok) :
    Registered rk addr newGuid out r (entry s rk.id) s.table
  | checked {r p t} (passes : Passes s rk addr)
      (rest : Checked (found expired s rk.id out.getPeer) s.table s.now rk addr newGuid out r p t) :
    Registered rk addr newGuid out r (some p) t

variable {expired s}

theorem registerPkRun (expired : Nat → Nat) (placed : Placed s) (rk : RegisterPk) (addr : SocketAddr)
    (newGuid : Bytes) (out : Outage) :
    ∃ p t, Registered expired s rk addr newGuid out
        ((registerPkResult rk addr newGuid out).run (exec expired) s).1 p t ∧
      Moved s ((registerPkResult rk addr newGuid out).run (exec expired) s).2 rk.id p t := by
  unfold registerPkResult act
  split
  · rename_i short
    exact ⟨_,_,.early (fun passes => absurd passes.1 (by omega)) (by simp [Prog.run]),notMoved placed _⟩
  rename_i long
  simp only [performIs,bindOp,bindRet,Prog.run,exec]
  have admitted : ∀ blocker, Moved s { s with ipBlocker := blocker } rk.id (entry s rk.id) s.table :=
    fun blocker => ⟨⟨placed.inside,placed.apart⟩,rfl,fun _ _ => rfl,rfl,rfl⟩
  by_cases allowed : (blocked s.now s.ipBlocker addr.ip.text rk.id).1 = true
  · simp only [allowed,Bool.not_true,Bool.false_eq_true,if_false,runBind]
    have first := admitted (blocked s.now s.ipBlocker addr.ip.text rk.id).2
    generalize (blocked s.now s.ipBlocker addr.ip.text rk.id).2 = blocker at first ⊢
    obtain ⟨second,lookup⟩ := getOrRun expired first.placed rk.id out.getPeer
    obtain ⟨p,t,rest,third⟩ := registerAtRun expired second.placed lookup rk addr newGuid out rfl
    have peer := second.here
    rw [entryOf lookup] at peer
    rw [Option.some.inj peer,second.table,second.now] at rest
    exact ⟨some p,t,.checked ⟨by omega,allowed⟩ rest,movedTrans first (movedTrans second third)⟩
  · have held : ¬ Passes s rk addr := fun passes => allowed passes.2
    simp only [allowed,Bool.not_false,if_true]
    exact ⟨_,_,.early held (by simp [Prog.run]),admitted _⟩

theorem registerPeerAsked {addr : SocketAddr}
    (ask : ∀ p, entry s id = some p → requestPk p addr.ip = true) :
    (registerPeerResponse id addr).run (exec expired) s = (true,s) := by
  unfold registerPeerResponse act
  simp only [performIs,bindOp,Prog.run,exec]
  cases lookup : s.map.lookup id with
  | none => rfl
  | some ref => simp only [bindRet,Prog.run,exec,ask _ (entryOf lookup),if_true]

theorem registerPeerKnown (expired : Nat → Nat) (placed : Placed s) {addr : SocketAddr} {p : Peer} (here : entry s id = some p)
    (known : requestPk p addr.ip = false) :
    ((registerPeerResponse id addr).run (exec expired) s).1 = false ∧
      Moved s ((registerPeerResponse id addr).run (exec expired) s).2 id
        (some { p with socketAddr := addr,lastRegTime := s.now }) s.table := by
  obtain ⟨ref,lookup,rfl⟩ := Option.map_eq_some_iff.mp here
  have run : (registerPeerResponse id addr).run (exec expired) s =
      (false,s.amend ref fun p => { p with socketAddr := addr,lastRegTime := s.now }) := by
    unfold registerPeerResponse act
    simp only [performIs,bindOp,bindRet,Prog.run,exec,lookup,known,Bool.false_eq_true,if_false]
  rw [run]
  exact ⟨rfl,(amended placed lookup _).1⟩

end Calls

def answering (expired : Nat → Nat) (c : Call) (s : Registry) : Reply × Registry :=
  (program c).run (exec expired) s

section Turns
variable (expired : Nat → Nat)

/- What a call can do, said once: its reply, the id it is about, and what becomes of the
entry of that id and of the table. -/
inductive Turn (s : Registry) : Call → Reply → String → Option Peer → Peers → Prop where
  | silent {c} (id) : Turn s c .silent id (entry s id) s.table
  | pk {rk addr newGuid out r p t} (uuid : rk.uuid ≠ []) (pk : rk.pk ≠ [])
      (registered : Registered expired s rk addr newGuid out r p t) :
    Turn s (.registerPk rk addr newGuid out) (.pk r) rk.id p t
  | asked {id addr} (ask : ∀ p, entry s id = some p → requestPk p addr.ip = true) :
    Turn s (.registerPeer id addr) (.peer true) id (entry s id) s.table
  | refreshed {id addr p} (here : entry s id = some p) (known : requestPk p addr.ip = false) :
    Turn s (.registerPeer id addr) (.peer false) id (some { p with socketAddr := addr,lastRegTime := s.now }) s.table
  | looked {id fails ref} : Turn s (.get id fails) (.found ref) id (got expired s id fails) s.table

theorem runMap {α β : Type} (f : α → β) (p : Prog Op Resp α) (s : Registry) :
    (f <$> p).run (exec expired) s = (f (p.run (exec expired) s).1,(p.run (exec expired) s).2) := by
  rw [← bind_pure_comp,runBind]
  rfl

theorem turn {s : Registry} (placed : Placed s) (c : Call) : ∃ id p t,
    Turn expired s c (answering expired c s).1 id p t ∧ Moved s (answering expired c s).2 id p t := by
  unfold answering program
  cases c with
  | registerPk rk addr newGuid out =>
    dsimp only
    by_cases empty : (rk.uuid.isEmpty || rk.pk.isEmpty) = true
    · rw [if_pos empty]
      exact ⟨rk.id,_,_,.silent _,notMoved placed _⟩
    · rw [if_neg empty,runMap]
      simp only [Bool.or_eq_true,List.isEmpty_iff,not_or] at empty
      obtain ⟨p,t,registered,moved⟩ := registerPkRun expired placed rk addr newGuid out
      exact ⟨_,p,t,.pk empty.1 empty.2 registered,moved⟩
  | registerPeer id addr =>
    dsimp only
    by_cases empty : id.isEmpty = true
    · rw [if_pos empty]
      exact ⟨id,_,_,.silent _,notMoved placed _⟩
    · rw [if_neg empty,runMap]
      cases here : entry s id with
      | none =>
        have ask : ∀ p, entry s id = some p → requestPk p addr.ip = true := by simp [here]
        rw [registerPeerAsked ask]
        exact ⟨id,_,_,.asked ask,notMoved placed _⟩
      | some p =>
        cases known : requestPk p addr.ip with
        | true =>
          have ask : ∀ p, entry s id = some p → requestPk p addr.ip = true := by
            intro q there
            cases Option.some.inj (here.symm.trans there)
            exact known
          rw [registerPeerAsked ask]
          exact ⟨id,_,_,.asked ask,notMoved placed _⟩
        | false =>
          obtain ⟨reply,moved⟩ := registerPeerKnown expired placed here known
          rw [reply]
          exact ⟨id,_,_,.refreshed here known,moved⟩
  | get id fails =>
    dsimp only
    rw [runMap]
    exact ⟨id,_,_,.looked,(getRun expired placed id fails).1⟩

/- Calls one after another, with restarts and the passing of time in between. -/
inductive History (meets : Registry → Call → Prop) (first : Registry) :
    List (Call × Reply) → Registry → Prop where
  | start : History meets first [] first
  | call {past s c} (before : History meets first past s) (ok : meets s c) :
    History meets first (past ++ [(c,(answering expired c s).1)]) (answering expired c s).2
  | restart {past s} (before : History meets first past s) : History meets first past s.restart
  | tick {past s} (before : History meets first past s) (ns : Nat) :
    History meets first past { s with now := s.now + ns }

variable {expired} {meets : Registry → Call → Prop} {first : Registry}

theorem placedEmpty (now : Nat) (table : Peers) : Placed (.init now table) :=
  ⟨fun id ref found => by simp [Registry.init] at found,fun id id' ref ref' found => by simp [Registry.init] at found⟩

theorem historyPlaced (placed : Placed first) {past s} (history : History expired meets first past s) : Placed s := by
  induction history with
  | start => exact placed
  | call before ok ih =>
    obtain ⟨id,p,t,_,moved⟩ := turn expired ih _
    exact moved.placed
  | restart before ih => exact placedEmpty _ _
  | tick before ns ih => exact ⟨ih.inside,ih.apart⟩

/- The invariant rule for histories: one obligation for each call, one for restarts; what
holds is about entries and rows, on which the clock has no influence. -/
theorem historyInvariant {I : List (Call × Reply) → Registry → Prop} (placed : Placed first) (base : I [] first)
    (onCall : ∀ past s c id p t s', Placed s → meets s c → I past s → Turn expired s c (answering expired c s).1 id p t →
      Moved s s' id p t → I (past ++ [(c,(answering expired c s).1)]) s')
    (onRestart : ∀ past s, I past s → I past s.restart)
    (onTick : ∀ past s ns, I past s → I past { s with now := s.now + ns })
    {past s} (history : History expired meets first past s) : I past s := by
  induction history with
  | start => exact base
  | call before ok ih =>
    have there := historyPlaced placed before
    obtain ⟨id,p,t,turn,moved⟩ := turn expired there _
    exact onCall _ _ _ id p t _ there ok ih turn moved
  | restart before ih => exact onRestart _ _ ih
  | tick before ns ih => exact onTick _ _ ns ih

end Turns

/- For concrete runs. -/
def hourAgo (now : Nat) : Nat := now - 3600000000000

def bootInstant : Nat := 7200000000000

end OpenuuServer.PeerSequence
