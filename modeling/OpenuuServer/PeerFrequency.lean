import OpenuuServer.PeerHandshake
import Mathlib.Data.List.Chain

/-! How often a key can be registered. The count of an id is copied out in one lock section, judged
and increased outside, and written back in another one; calls that overlap in between judge the same
count. -/
namespace OpenuuServer.PeerFrequency
open AtomicProgram UniqueTable IpText PeerRegistry PeerSequence PeerRaces

/- A pause of more than six whole seconds. -/
def Paused (earlier later : Nat) : Prop := 6 < elapsedSecs later earlier

/- Never more than three in a row without such a pause. -/
def Limited (times : List Nat) : Prop :=
  ∀ before row after, times = before ++ row ++ after → row.IsChain (fun a b => ¬ Paused a b) → row.length ≤ 3

/- The counts to which the check can lead, with the instants of the calls that got past it. -/
inductive Counted : Nat × Nat → List Nat → Prop where
  | nobody {since} : Counted (0,since) []
  | more {count times now count'} (before : Counted count times) (passed : countPk count now = some count') :
      Counted count' (times ++ [now])

theorem countCases {count count' : Nat × Nat} {now : Nat} (passed : countPk count now = some count') :
    Paused count.2 now ∧ count' = (1,now) ∨ ¬ Paused count.2 now ∧ count.1 ≤ 2 ∧ count' = (count.1 + 1,now) := by
  unfold countPk at passed
  split at passed
  · rename_i paused
    exact .inl ⟨paused,(Option.some.inj passed).symm⟩
  · rename_i soon
    split at passed
    · cases passed
    · rename_i few
      exact .inr ⟨soon,Nat.not_lt.mp few,(Option.some.inj passed).symm⟩

/- The count bounds every stretch without a pause that lasts until now. -/
structure Bounded (count : Nat × Nat) (times : List Nat) : Prop where
  few : count.1 ≤ 3
  last : ∀ t ∈ times.getLast?, t = count.2
  row : ∀ before row, times = before ++ row → row.IsChain (fun a b => ¬ Paused a b) → row.length ≤ count.1

theorem countedBounded {count : Nat × Nat} {times : List Nat} (counted : Counted count times) : Bounded count times := by
  induction counted with
  | nobody =>
    refine ⟨Nat.zero_le _,fun t wrong => (by cases wrong),fun before row same _ => ?_⟩
    rw [(List.append_eq_nil_iff.mp same.symm).2]
    exact Nat.le_refl _
  | @more count times now count' before passed ih =>
    have last : ∀ t ∈ (times ++ [now]).getLast?, t = now := by simp
    -- a row that ends now is the old one with one more, or it is that one alone
    have split : ∀ start row, times ++ [now] = start ++ row → row.IsChain (fun a b => ¬ Paused a b) →
        row.length ≤ 1 ∨ ¬ Paused count.2 now ∧ row.length ≤ count.1 + 1 := by
      intro start row same chain
      rcases List.eq_nil_or_concat' row with rfl | ⟨init,t,rfl⟩
      · exact .inl (Nat.zero_le _)
      · rw [← List.append_assoc] at same
        obtain ⟨rfl,one⟩ := List.append_inj' same rfl
        cases one
        rcases List.eq_nil_or_concat' init with rfl | ⟨init',u,rfl⟩
        · exact .inl (Nat.le_refl _)
        · obtain ⟨inner,_,soon⟩ := List.isChain_append.mp chain
          have value : u = count.2 := ih.last u (by simp)
          subst value
          refine .inr ⟨soon _ (by simp) _ (by simp),?_⟩
          have less := ih.row start (init' ++ [count.2]) rfl inner
          rw [List.length_append]
          exact Nat.succ_le_succ less
    rcases countCases passed with ⟨paused,rfl⟩ | ⟨soon,few,rfl⟩
    · refine ⟨Nat.succ_le_succ (Nat.zero_le _),last,fun start row same chain => ?_⟩
      rcases split start row same chain with one | ⟨soon,_⟩
      · exact one
      · exact absurd paused soon
    · refine ⟨Nat.succ_le_succ few,last,fun start row same chain => ?_⟩
      rcases split start row same chain with one | ⟨_,less⟩
      · exact Nat.le_trans one (Nat.le_add_left _ _)
      · exact less

theorem countedLimited {count : Nat × Nat} {times : List Nat} (counted : Counted count times) : Limited times := by
  induction counted with
  | nobody =>
    intro before row after same _
    obtain ⟨front,_⟩ := List.append_eq_nil_iff.mp same.symm
    rw [(List.append_eq_nil_iff.mp front).2]
    exact Nat.zero_le _
  | @more count times now count' before passed ih =>
    intro start row after same chain
    rcases List.eq_nil_or_concat' after with rfl | ⟨after',t,rfl⟩
    · have bounded := countedBounded (before.more passed)
      rw [List.append_nil] at same
      exact Nat.le_trans (bounded.row start row same chain) bounded.few
    · rw [← List.append_assoc] at same
      exact ih start row after' (List.append_inj' same rfl).1 chain

/- A check that a call got past: the peer and the count to write back. -/
def passing : Did Op Resp → Option (LockPeer × (Nat × Nat))
  | ⟨.regPkRead peer,r⟩ => (countPk r.1 r.2).map fun count => (peer,count)
  | _ => none

def due (done : List (Did Op Resp)) : Option (LockPeer × (Nat × Nat)) := done.getLast?.bind passing

/- The count that a task is about to write back. -/
def pending (w : World) (i : Nat) : Option (LockPeer × (Nat × Nat)) := due (w.didsOf i)

/- The instants of the checks for an id that calls got past. -/
def passes (w : World) (id : String) : List Nat :=
  w.log.filterMap fun e => ((passing e.did).filter fun passed => passed.1.id = id).map fun passed => passed.2.2

def reads : Op → Option LockPeer
  | .regPkRead peer => some peer
  | _ => none

def loads : Op → Option String
  | .insertLoaded _ id => some id
  | _ => none

/- No call reads a count that another one is about to write back, none puts what it loaded in the place
of a peer that is in memory, and hbbs is not started anew. -/
def InTurn (w : World) : Act Call Env → Prop
  | .advance i => (∀ peer ∈ (w.next i).bind reads, ∀ j < w.tasks.length, (pending w j).map Prod.fst ≠ some peer) ∧
      ∀ id ∈ (w.next i).bind loads, w.shared.map.lookup id = none
  | .env .restart => False
  | _ => True

section Programs
variable {α : Type}

/- The peer whose count an operation reads or writes. -/
def counts : Op → Option LockPeer
  | .regPkRead peer | .regPkWrite peer _ => some peer
  | _ => none

/- The pointer that an operation took from the map. -/
def took : Did Op Resp → Option LockPeer
  | ⟨.mapRead _,found⟩ => found
  | ⟨.insertLoaded _ _,peer⟩ => some peer
  | ⟨.getOrInsert _,peer⟩ => some peer
  | _ => none

/- Counts are used through a pointer that was taken, and exactly what passed the check is written
back, right after it. -/
structure Tidy (done : List (Did Op Resp)) (o : Op) : Prop where
  taken : ∀ peer ∈ counts o, ∃ d ∈ done, took d = some peer
  follows : ∀ peer count, due done = some (peer,count) ↔ o = .regPkWrite peer count

theorem dueLast (done : List (Did Op Resp)) (d : Did Op Resp) : due (done ++ [d]) = passing d := by simp [due]

theorem tidyFree {done : List (Did Op Resp)} {o : Op} (free : counts o = none) (nothing : due done = none) : Tidy done o := by
  refine ⟨fun peer wrong => ?_,fun peer count => ?_⟩
  · rw [free] at wrong
    cases wrong
  · rw [nothing]
    refine ⟨fun wrong => (by cases wrong),fun write => ?_⟩
    rw [write] at free
    cases free

theorem passingFree {o : Op} (free : counts o = none) (r : Resp o) : passing ⟨o,r⟩ = none := by
  cases o with
  | regPkRead peer | regPkWrite peer count => cases free
  | _ => rfl

theorem tidyAfter {p : Prog Op Resp α} (all : p.Every fun o => counts o = none) {done : List (Did Op Resp)}
    (nothing : due done = none) : p.EveryAfter Tidy done := by
  induction p generalizing done with
  | ret value => trivial
  | op o next ih =>
    obtain ⟨free,later⟩ := all
    exact ⟨tidyFree free nothing,fun r => ih r (later r) ((dueLast done _).trans (passingFree free r))⟩

theorem updatePkFree {id : String} {peer : LockPeer} {addr : SocketAddr} {uuid pk newGuid : Bytes} {ip : String} {out : Outage} :
    (PeerMap.updatePk id peer addr uuid pk ip newGuid out).Every fun o => counts o = none := by
  unfold PeerMap.updatePk act
  simp only [performIs,bindOp,bindRet]
  refine ⟨rfl,fun r => everyIte.mpr ⟨fun _ => ⟨rfl,fun inserted => ?_⟩,fun _ => ⟨rfl,fun updated => ?_⟩⟩⟩
  · cases inserted with
    | error e => trivial
    | ok guid => exact ⟨rfl,fun _ => trivial⟩
  · cases updated <;> trivial

theorem registerAtTidy {rk : RegisterPk} {addr : SocketAddr} {newGuid : Bytes} {out : Outage} {peer : LockPeer}
    {done : List (Did Op Resp)} (taken : ∃ d ∈ done, took d = some peer) (nothing : due done = none) :
    (registerAt rk addr newGuid out peer).EveryAfter Tidy done := by
  have stored : (PeerMap.updatePk rk.id peer addr rk.uuid rk.pk addr.ip.text newGuid out >>= fun _ =>
      (.ret .ok : Prog Op Resp Result)).Every fun o => counts o = none := everyBind updatePkFree fun _ => trivial
  obtain ⟨d,inside,same⟩ := taken
  have still : ∀ later, ∀ other ∈ some peer, ∃ d ∈ done ++ later, took d = some other := by
    intro later other mine
    cases Option.mem_some.mp mine
    exact ⟨d,List.mem_append_left _ inside,same⟩
  unfold registerAt act
  simp only [performIs,bindOp,bindRet]
  refine ⟨tidyFree rfl nothing,fun old => ?_⟩
  dsimp only
  cases checkPeer old rk addr.ip.text with
  | none => trivial
  | some verdict =>
    obtain ⟨changed,ipChanged⟩ := verdict
    refine ⟨⟨still _,fun other count => ?_⟩,fun r => ?_⟩
    · rw [dueLast]
      exact ⟨fun wrong => (by cases wrong),fun wrong => (by cases wrong)⟩
    · dsimp only
      cases judged : countPk r.1 r.2 with
      | none => trivial
      | some regPk =>
        have mine : passing ⟨.regPkRead peer,r⟩ = some (peer,regPk) := by simp [passing,judged]
        refine ⟨⟨?_,fun other count => ?_⟩,fun _ => tidyAfter ?_ (dueLast _ _)⟩
        · rw [List.append_assoc]
          exact still _
        · rw [dueLast,mine]
          constructor
          · intro equal
            cases equal
            rfl
          · intro equal
            cases equal
            rfl
        · refine everyIte.mpr ⟨fun _ => ⟨rfl,fun _ => ?_⟩,fun _ => ?_⟩
          · exact everyIte.mpr ⟨fun _ => stored,fun _ => trivial⟩
          · exact everyIte.mpr ⟨fun _ => stored,fun _ => trivial⟩

theorem getFree (id : String) (fails : Bool) : (PeerMap.get id fails).Every fun o => counts o = none := by
  unfold PeerMap.get act
  simp only [performIs,bindOp,bindRet]
  refine ⟨rfl,fun found => everyIte.mpr ⟨fun _ => trivial,fun _ => ⟨rfl,fun loaded => ?_⟩⟩⟩
  cases loaded with
  | error e => trivial
  | ok row => cases row with
    | none => trivial
    | some row => exact ⟨rfl,fun _ => trivial⟩

theorem registerPkTidy {rk : RegisterPk} {addr : SocketAddr} {newGuid : Bytes} {out : Outage} :
    (registerPkResult rk addr newGuid out).EveryAfter Tidy [] := by
  unfold registerPkResult PeerMap.getOr PeerMap.get act
  simp only [performIs,bindOp,bindRet,everyAfterIte,everyAfterOp,pureIsRet,everyAfterRet,implies_true,true_and]
  refine fun _ => ⟨tidyFree rfl rfl,fun allowed => fun _ => ⟨tidyFree rfl rfl,fun read => ?_⟩⟩
  cases read with
  | some ref => exact registerAtTidy ⟨⟨.mapRead rk.id,some ref⟩,by simp,rfl⟩ (dueLast _ _)
  | none =>
    refine ⟨tidyFree rfl (dueLast _ _),fun loaded => ?_⟩
    cases loaded with
    | error e => exact ⟨tidyFree rfl (dueLast _ _),fun ref => registerAtTidy ⟨⟨.getOrInsert rk.id,ref⟩,by simp,rfl⟩ (dueLast _ _)⟩
    | ok row => cases row with
      | none => exact ⟨tidyFree rfl (dueLast _ _),fun ref => registerAtTidy ⟨⟨.getOrInsert rk.id,ref⟩,by simp,rfl⟩ (dueLast _ _)⟩
      | some row =>
        exact ⟨tidyFree rfl (dueLast _ _),fun ref => registerAtTidy ⟨⟨.insertLoaded row rk.id,ref⟩,by simp,rfl⟩ (dueLast _ _)⟩

theorem programTidy (c : Call) : (program c).EveryAfter Tidy [] := by
  cases c with
  | registerPk rk addr newGuid out => exact everyAfterIte.mpr ⟨fun _ => trivial,fun _ => everyAfterMap.mpr registerPkTidy⟩
  | registerPeer id addr =>
    have free : (registerPeerResponse id addr).Every fun o => counts o = none := by
      unfold registerPeerResponse act
      simp only [performIs,bindOp,bindRet]
      refine ⟨rfl,fun old => ?_⟩
      cases old with
      | none => trivial
      | some old => exact ⟨rfl,fun _ => trivial⟩
    exact everyAfterIte.mpr ⟨fun _ => trivial,fun _ => everyAfterMap.mpr (tidyAfter free rfl)⟩
  | get id fails => exact everyAfterMap.mpr (tidyAfter (getFree id fails) rfl)

end Programs

/- Peers come into memory with a count of nobody, and those that are there keep theirs. -/
structure Grown (s s' : Registry) : Prop where
  old : ∀ id ref, s.map.lookup id = some ref → s'.map.lookup id = some ref ∧ (s'.peer ref).regPk = (s.peer ref).regPk
  new : ∀ id ref, s'.map.lookup id = some ref →
    s.map.lookup id = some ref ∨ s.map.lookup id = none ∧ ref.id = id ∧ (s'.peer ref).regPk.1 = 0

section Steps
variable {expired : Nat → Nat} {s : Registry}

theorem grownSame {s' : Registry} (map : s'.map = s.map) (counts : ∀ ref, (s'.peer ref).regPk = (s.peer ref).regPk) :
    Grown s s' := by
  constructor
  · intro id ref there
    rw [map]
    exact ⟨there,counts ref⟩
  · intro id ref there
    rw [map] at there
    exact .inl there

theorem grownAmended (ref : LockPeer) {f : Peer → Peer} (keeps : ∀ p, (f p).regPk = p.regPk) : Grown s (s.amend ref f) := by
  refine grownSame rfl fun other => ?_
  simp only [Registry.peer,Registry.amend,List.getD_eq_getElem?_getD,List.getElem?_modify]
  cases s.heap[other.number]? with
  | none => rfl
  | some p =>
    by_cases here : ref.number = other.number
    · simp [here,keeps]
    · simp [here]

theorem grownAllocated (placed : Placed s) {id : String} (absent : s.map.lookup id = none) {p : Peer} (nobody : p.regPk.1 = 0) :
    Grown s (s.allocate id p).2 := by
  constructor
  · intro other ref there
    have apart : other ≠ id := by
      intro same
      rw [same,absent] at there
      cases there
    refine ⟨(AList.lookup_insert_ne apart).trans there,?_⟩
    simp [Registry.peer,Registry.allocate,List.getElem?_append_left (placed.inside other ref there)]
  · intro other ref there
    by_cases same : other = id
    · subst same
      have made := (AList.lookup_insert _).symm.trans there
      cases Option.some.inj made
      refine .inr ⟨absent,rfl,?_⟩
      simpa [Registry.peer,Registry.allocate] using nobody
    · exact .inl ((AList.lookup_insert_ne same).symm.trans there)

theorem grown (placed : Placed s) {o : Op} (other : ∀ ref count, o ≠ .regPkWrite ref count)
    (free : ∀ id ∈ loads o, s.map.lookup id = none) : Grown s (exec expired o s).2 := by
  have same : Grown s s := grownSame rfl fun _ => rfl
  cases o with
  | regPkWrite ref count => exact absurd rfl (other ref count)
  | insertLoaded row id => exact grownAllocated placed (free id rfl) rfl
  | getOrInsert id =>
    simp only [exec]
    split
    · exact same
    · rename_i absent
      exact grownAllocated placed absent rfl
  | guidWrite ref guid => exact grownAmended ref fun _ => rfl
  | peerUpdate ref addr uuid pk ip => exact grownAmended ref fun _ => rfl
  | peerRefresh ref addr =>
    simp only [exec]
    split
    · exact same
    · exact grownAmended ref fun _ => rfl
  | dbInsertPeer id uuid pk info guid fails =>
    simp only [exec]
    split
    · exact same
    · split
      · exact grownSame rfl fun _ => rfl
      · exact same
  | dbUpdatePk guid id pk info fails =>
    simp only [exec]
    split
    · exact same
    · split
      · exact grownSame rfl fun _ => rfl
      · exact same
  | _ => exact grownSame rfl fun _ => rfl

/- A pointer that an operation took is the entry of its id. -/
theorem tookEntry {o : Op} (named : ∀ id ref, s.map.lookup id = some ref → ref.id = id) {peer : LockPeer}
    (taken : took ⟨o,(exec expired o s).1⟩ = some peer) : (exec expired o s).2.map.lookup peer.id = some peer := by
  cases o with
  | mapRead id =>
    have there : s.map.lookup id = some peer := taken
    have mine := named id peer there
    rw [← mine] at there
    exact there
  | insertLoaded row id =>
    cases Option.some.inj taken
    exact AList.lookup_insert _
  | getOrInsert id =>
    have result : ((exec expired (.getOrInsert id) s).1 : LockPeer) = peer := Option.some.inj taken
    simp only [exec] at result ⊢
    cases there : s.map.lookup id with
    | none =>
      rw [there] at result
      cases result
      exact AList.lookup_insert _
    | some ref =>
      rw [there] at result
      cases result
      have mine := named id ref there
      rw [← mine] at there
      exact there
  | _ => cases taken

end Steps

/- Every count, in memory or about to be written back, is one that the check leads to with the calls
that got past it. -/
structure Tallied (w : World) : Prop where
  placed : Placed w.shared
  named : ∀ id ref, w.shared.map.lookup id = some ref → ref.id = id
  current : ∀ e ∈ w.log, ∀ ref, took e.did = some ref → w.shared.map.lookup ref.id = some ref
  absent : ∀ id, w.shared.map.lookup id = none → passes w id = []
  due : ∀ i ref count, pending w i = some (ref,count) →
    w.shared.map.lookup ref.id = some ref ∧ Counted count (passes w ref.id)
  kept : ∀ id ref, w.shared.map.lookup id = some ref → (∀ i count, pending w i ≠ some (ref,count)) →
    Counted (w.shared.peer ref).regPk (passes w id)

section Runs
variable {expired : Nat → Nat} {s : Registry} {w : World}

theorem talliedCounted (tallied : Tallied w) (id : String) : ∃ count, Counted count (passes w id) := by
  cases there : w.shared.map.lookup id with
  | none =>
    rw [tallied.absent id there]
    exact ⟨(0,0),.nobody⟩
  | some ref =>
    by_cases waiting : ∃ i count, pending w i = some (ref,count)
    · obtain ⟨i,count,owed⟩ := waiting
      obtain ⟨_,counted⟩ := tallied.due i ref count owed
      rw [tallied.named id ref there] at counted
      exact ⟨count,counted⟩
    · exact ⟨_,tallied.kept id ref there fun i count owed => waiting ⟨i,count,owed⟩⟩

theorem filterMapOne {α β : Type} (f : α → Option β) (a : α) : [a].filterMap f = (f a).toList := by
  cases made : f a with
  | none => simp [made]
  | some b => simp [made]

section Performed
variable {i : Nat} {c : Call} {o : Op} {next : Resp o → Prog Op Resp Reply}

theorem pendingPerformed (j : Nat) : pending ((machine expired).performed w i c o next) j =
    if i = j then passing ⟨o,(exec expired o w.shared).1⟩ else pending w j := by
  unfold pending
  rw [Machine.didsPerformed]
  by_cases same : i = j
  · rw [if_pos same,if_pos same]
    exact dueLast _ _
  · rw [if_neg same,if_neg same,List.append_nil]

theorem passesPerformed (id : String) : passes ((machine expired).performed w i c o next) id =
    passes w id ++ (((passing ⟨o,(exec expired o w.shared).1⟩).filter
      fun passed => passed.1.id = id).map fun passed => passed.2.2).toList := by
  simp only [passes,Machine.performed,List.filterMap_append]
  rw [filterMapOne]
  rfl

/- An operation by which no call gets past the check. -/
theorem pendingStill (nothing : passing ⟨o,(exec expired o w.shared).1⟩ = none) (idle : pending w i = none) (j : Nat) :
    pending ((machine expired).performed w i c o next) j = pending w j := by
  rw [pendingPerformed,nothing]
  split
  · rename_i same
    rw [← same,idle]
  · rfl

theorem passesStill (nothing : passing ⟨o,(exec expired o w.shared).1⟩ = none) (id : String) :
    passes ((machine expired).performed w i c o next) id = passes w id := by
  rw [passesPerformed,nothing]
  simp

theorem tookBefore (none : took ⟨o,(exec expired o w.shared).1⟩ = none) {e}
    (member : e ∈ ((machine expired).performed w i c o next).log) {ref} (taken : took e.did = some ref) : e ∈ w.log := by
  rcases Machine.memPerformed.mp member with old | rfl
  · exact old
  · cases none.symm.trans taken

/- A step that neither reads nor writes a count. -/
theorem talliedOther (tallied : Tallied w) (free : counts o = none) (idle : pending w i = none)
    (empty : ∀ id ∈ loads o, w.shared.map.lookup id = none) : Tallied ((machine expired).performed w i c o next) := by
  have other : ∀ ref count, o ≠ .regPkWrite ref count := by
    intro ref count same
    rw [same] at free
    cases free
  have nothing : passing ⟨o,(exec expired o w.shared).1⟩ = none := passingFree free _
  have still : ∀ j, pending ((machine expired).performed w i c o next) j = pending w j := pendingStill nothing idle
  have times : ∀ id, passes ((machine expired).performed w i c o next) id = passes w id := passesStill nothing
  have grows := @grown expired _ tallied.placed _ other empty
  refine ⟨PeerHandshake.placedExec tallied.placed o,fun id ref there => ?_,fun e member ref taken => ?_,fun id gone => ?_,
    fun j ref count owed => ?_,fun id ref there unowed => ?_⟩
  · rcases grows.new id ref there with old | ⟨_,mine,_⟩
    · exact tallied.named id ref old
    · exact mine
  · rcases Machine.memPerformed.mp member with old | rfl
    · exact (grows.old _ _ (tallied.current e old ref taken)).1
    · exact tookEntry tallied.named taken
  · rw [times]
    refine tallied.absent id ?_
    cases there : w.shared.map.lookup id with
    | none => rfl
    | some ref => cases gone.symm.trans (grows.old id ref there).1
  · rw [still] at owed
    rw [times]
    obtain ⟨there,counted⟩ := tallied.due j ref count owed
    exact ⟨(grows.old _ _ there).1,counted⟩
  · rw [times]
    rcases grows.new id ref there with old | ⟨gone,_,nobody⟩
    · have counted := tallied.kept id ref old fun j count owed => unowed j count ((still j).trans owed)
      have same : (((machine expired).performed w i c o next).shared.peer ref).regPk = (w.shared.peer ref).regPk :=
        (grows.old id ref old).2
      rw [same]
      exact counted
    · rw [tallied.absent id gone]
      have shape : (((machine expired).performed w i c o next).shared.peer ref).regPk =
          (0,(((machine expired).performed w i c o next).shared.peer ref).regPk.2) := Prod.ext nobody rfl
      rw [shape]
      exact .nobody

/- A call reads a count that nobody is about to write back. -/
theorem talliedRead {peer : LockPeer} {next : Resp (.regPkRead peer) → Prog Op Resp Reply} (tallied : Tallied w)
    (idle : pending w i = none) (there : w.shared.map.lookup peer.id = some peer)
    (unowed : ∀ j count, pending w j ≠ some (peer,count)) : Tallied ((machine expired).performed w i c (.regPkRead peer) next) := by
  have counted := tallied.kept peer.id peer there unowed
  have judged : passing ⟨.regPkRead peer,(exec expired (.regPkRead peer) w.shared).1⟩ =
      (countPk (w.shared.peer peer).regPk w.shared.now).map fun count => (peer,count) := rfl
  cases passed : countPk (w.shared.peer peer).regPk w.shared.now with
  | none =>
    rw [passed] at judged
    have still : ∀ j, pending ((machine expired).performed w i c (.regPkRead peer) next) j = pending w j :=
      pendingStill judged idle
    have times : ∀ id, passes ((machine expired).performed w i c (.regPkRead peer) next) id = passes w id :=
      passesStill judged
    refine ⟨tallied.placed,tallied.named,fun e member ref taken => ?_,fun id gone => ?_,
      fun j ref count owed => ?_,fun id ref there unowed => ?_⟩
    · exact tallied.current e (tookBefore rfl member taken) ref taken
    · rw [times]
      exact tallied.absent id gone
    · rw [still] at owed
      rw [times]
      exact tallied.due j ref count owed
    · rw [times]
      exact tallied.kept id ref there fun j count owed => unowed j count ((still j).trans owed)
  | some count =>
    rw [passed] at judged
    have now : count.2 = w.shared.now := by
      rcases countCases passed with ⟨_,rfl⟩ | ⟨_,_,rfl⟩ <;> rfl
    have pendings : ∀ j, pending ((machine expired).performed w i c (.regPkRead peer) next) j =
        if i = j then some (peer,count) else pending w j := by
      intro j
      rw [pendingPerformed,judged]
      rfl
    have mine : passes ((machine expired).performed w i c (.regPkRead peer) next) peer.id =
        passes w peer.id ++ [w.shared.now] := by
      rw [passesPerformed,judged,← now]
      simp [Option.filter]
    have others : ∀ id, id ≠ peer.id → passes ((machine expired).performed w i c (.regPkRead peer) next) id = passes w id := by
      intro id apart
      rw [passesPerformed,judged]
      simp [apart.symm]
    refine ⟨tallied.placed,tallied.named,fun e member ref taken => ?_,fun id gone => ?_,
      fun j ref count' owed => ?_,fun id ref here unowed' => ?_⟩
    · exact tallied.current e (tookBefore rfl member taken) ref taken
    · have apart : id ≠ peer.id := by
        rintro rfl
        cases gone.symm.trans there
      rw [others id apart]
      exact tallied.absent id gone
    · rw [pendings] at owed
      split at owed
      · cases owed
        rw [mine]
        exact ⟨there,counted.more passed⟩
      · by_cases same : ref.id = peer.id
        · -- the id has one peer in memory, so this would be a call about to write the count that was read
          obtain ⟨here,_⟩ := tallied.due j ref count' owed
          rw [same] at here
          cases here.symm.trans there
          exact absurd owed (unowed j count')
        · rw [others _ same]
          exact tallied.due j ref count' owed
    · by_cases same : id = peer.id
      · subst same
        cases here.symm.trans there
        have owed := pendings i
        rw [if_pos rfl] at owed
        exact absurd owed (unowed' i count)
      · rw [others id same]
        refine tallied.kept id ref here fun j count' owed => unowed' j count' ?_
        have apart : i ≠ j := by
          rintro rfl
          cases idle.symm.trans owed
        rw [pendings,if_neg apart]
        exact owed

/- A call writes back what passed the check. -/
theorem talliedWrite {peer : LockPeer} {count : Nat × Nat} {next : Resp (.regPkWrite peer count) → Prog Op Resp Reply}
    (tallied : Tallied w) (owed : pending w i = some (peer,count)) :
    Tallied ((machine expired).performed w i c (.regPkWrite peer count) next) := by
  obtain ⟨there,counted⟩ := tallied.due i peer count owed
  have nothing : passing ⟨.regPkWrite peer count,(exec expired (.regPkWrite peer count) w.shared).1⟩ = none := rfl
  have pendings : ∀ j, pending ((machine expired).performed w i c (.regPkWrite peer count) next) j =
      if i = j then none else pending w j := by
    intro j
    rw [pendingPerformed,nothing]
  have later : ∀ j owed', pending ((machine expired).performed w i c (.regPkWrite peer count) next) j = some owed' →
      i ≠ j ∧ pending w j = some owed' := by
    intro j owed' there
    rw [pendings] at there
    split at there
    · cases there
    · rename_i apart
      exact ⟨apart,there⟩
  have times : ∀ id, passes ((machine expired).performed w i c (.regPkWrite peer count) next) id = passes w id :=
    passesStill nothing
  refine ⟨PeerHandshake.placedExec tallied.placed _,tallied.named,fun e member ref taken => ?_,fun id gone => ?_,
    fun j ref count' owed' => ?_,fun id ref here unowed => ?_⟩
  · exact tallied.current e (tookBefore rfl member taken) ref taken
  · rw [times]
    exact tallied.absent id gone
  · rw [times]
    exact tallied.due j ref count' (later j _ owed').2
  · rw [times]
    have before : w.shared.map.lookup id = some ref := here
    by_cases same : ref.number = peer.number
    · have mine := tallied.placed.apart id peer.id ref peer before there same
      subst mine
      cases before.symm.trans there
      have inside := tallied.placed.inside _ _ there
      have written : (((machine expired).performed w i c (.regPkWrite peer count) next).shared.peer peer).regPk = count := by
        change ((w.shared.amend peer fun p => { p with regPk := count }).peer peer).regPk = count
        simp [Registry.peer,Registry.amend,List.getElem?_eq_getElem inside]
      rw [written]
      exact counted
    · have kept : (((machine expired).performed w i c (.regPkWrite peer count) next).shared.peer ref).regPk =
        (w.shared.peer ref).regPk := by
        change ((w.shared.amend peer fun p => { p with regPk := count }).peer ref).regPk = _
        simp only [Registry.peer,Registry.amend,List.getD_eq_getElem?_getD,List.getElem?_modify,if_neg (Ne.symm same)]
        simp
      rw [kept]
      refine tallied.kept id ref before fun j count' owed' => unowed j count' ?_
      have apart : i ≠ j := by
        rintro rfl
        cases owed.symm.trans owed'
        exact same rfl
      rw [pendings,if_neg apart]
      exact owed'

end Performed

theorem running {t : Task Op Resp Call Reply} {i : Nat} (there : w.tasks[i]? = some t) : i < w.tasks.length :=
  (List.getElem?_eq_some_iff.mp there).1

/- Only tasks that there are can be about to write. -/
theorem pendingTask {ok : World → Act Call Env → Prop} (reach : (machine expired).Reach ok s w) {i : Nat}
    {owed : LockPeer × (Nat × Nat)} (waiting : pending w i = some owed) : i < w.tasks.length := by
  obtain ⟨d,last,_⟩ := Option.bind_eq_some_iff.mp waiting
  obtain ⟨e,member,task,_⟩ := didsOfMember.mp (List.mem_of_getLast? last)
  obtain ⟨t,there,_⟩ := Machine.eventTask reach e member
  rw [task] at there
  exact running there

theorem talliedRun (placed : Placed s) (empty : ∀ id, s.map.lookup id = none)
    (reach : (machine expired).Reach InTurn s w) : Tallied w := by
  refine Machine.invariant (I := Tallied) ?_ ?_ ?_ ?_ reach
  · have nothing : ∀ i, pending (Machine.initial s : World) i = none := fun i => rfl
    refine ⟨placed,fun id ref there => ?_,by simp [Machine.initial],fun id _ => rfl,
      fun i ref count owed => ?_,fun id ref there _ => ?_⟩
    · cases (empty id).symm.trans there
    · cases (nothing i).symm.trans owed
    · cases (empty id).symm.trans there
  · intro w c _ _ ih
    exact ⟨ih.placed,ih.named,ih.current,ih.absent,ih.due,ih.kept⟩
  · intro w i c o next before meets waiting _ ih
    obtain ⟨alone,inTime⟩ := meets
    have tidy := (everyAfterOnPath (Machine.taskPath before waiting) (programTidy c)).1
    have there : ∀ peer ∈ counts o, w.shared.map.lookup peer.id = some peer := by
      intro peer uses
      obtain ⟨d,done,taken⟩ := tidy.taken peer uses
      obtain ⟨e,member,_,rfl⟩ := didsOfMember.mp done
      exact ih.current e member peer taken
    have idle : (∀ peer count, o ≠ .regPkWrite peer count) → pending w i = none := by
      intro other
      cases owed : pending w i with
      | none => rfl
      | some owed' => exact absurd ((tidy.follows owed'.1 owed'.2).mp owed) (other _ _)
    cases o with
    | regPkRead peer =>
      refine talliedRead ih (idle fun _ _ wrong => by cases wrong) (there peer rfl) fun j count owed => ?_
      refine alone peer ?_ j (pendingTask before owed) ?_
      · rw [nextIs waiting]
        rfl
      · rw [owed]
        rfl
    | regPkWrite peer count => exact talliedWrite ih ((tidy.follows peer count).mpr rfl)
    | _ =>
      refine talliedOther ih rfl (idle fun _ _ wrong => by cases wrong) fun id mine => inTime id ?_
      rw [nextIs waiting]
      exact mine
  · intro w e _ meets ih
    cases e with
    | tick ns => exact ⟨⟨ih.placed.inside,ih.placed.apart⟩,ih.named,ih.current,ih.absent,ih.due,ih.kept⟩
    | restart => exact absurd meets id

/- As long as the calls take turns, of the calls for an id that get past the check never more than three
come in a row without a pause of more than six whole seconds. -/
theorem limitedInTurn {now : Nat} {table : Peers} (reach : (machine expired).Reach InTurn (.init now table) w) (id : String) :
    Limited (passes w id) := by
  obtain ⟨count,counted⟩ := talliedCounted (talliedRun (placedEmpty now table) (fun _ => rfl) reach) id
  exact countedLimited counted

end Runs

section Concrete

instance (w : World) : (a : Act Call Env) → Decidable (InTurn w a)
  | .advance i => inferInstanceAs (Decidable ((∀ peer ∈ (w.next i).bind reads, ∀ j < w.tasks.length,
      (pending w j).map Prod.fst ≠ some peer) ∧ ∀ id ∈ (w.next i).bind loads, w.shared.map.lookup id = none))
  | .env .restart => .isFalse id
  | .env (.tick _) | .start _ => .isTrue trivial

theorem burstUnlimited {times : List Nat} {t : Nat} (burst : times = [t,t,t,t]) : ¬ Limited times := by
  intro limited
  have soon : ¬ Paused t t := by simp [Paused,elapsedSecs]
  have four := limited [] [t,t,t,t] [] (by simpa using burst) (by simp [soon])
  exact absurd four (by simp)

/- Four requests read the count before any of them writes it back. -/
def burstActs : List (Act Call Env) :=
  List.replicate 4 (.start (attempt 1 7)) ++ advances 0 6 ++ advances 1 4 ++ advances 2 4 ++ advances 3 4 ++
    advances 0 4 ++ advances 1 3 ++ advances 2 3 ++ advances 3 3

theorem burstPasses : ∃ w, (machine hourAgo).Reach (OnlyRequests "100000003" .empty) (.init bootInstant .empty) w ∧
    (∀ i < 4, w.answer i = attemptOk 1 7) ∧ ¬ Limited (passes w "100000003") := by
  obtain ⟨w,reach,shown⟩ := Machine.reachWith (OnlyRequests "100000003" .empty)
    (fun w a => decide (OnlyRequests "100000003" .empty w a)) (fun _ _ => of_decide_eq_true) burstActs
    (m := machine hourAgo) (s := .init bootInstant .empty)
    (P := fun w => (List.range 4).all (fun i => decide (w.answer i = attemptOk 1 7)) &&
      decide (passes w "100000003" = [bootInstant,bootInstant,bootInstant,bootInstant])) (by decide +kernel)
  obtain ⟨answers,times⟩ := Bool.and_eq_true_iff.mp shown
  have each : ∀ i < 4, w.answer i = attemptOk 1 7 := by
    intro i less
    exact of_decide_eq_true (List.all_eq_true.mp answers i (List.mem_range.mpr less))
  exact ⟨w,reach,each,burstUnlimited (of_decide_eq_true times)⟩

/- One after the other, the fourth has to wait. -/
def turnActs : List (Act Call Env) :=
  List.replicate 5 (.start (attempt 1 7)) ++ advances 0 10 ++ advances 1 5 ++ advances 2 5 ++ advances 3 4 ++
    [.env (.tick 7000000000)] ++ advances 4 5

theorem turnsLimited : ∃ w, (machine hourAgo).Reach InTurn (.init bootInstant .empty) w ∧
    w.answer 2 = attemptOk 1 7 ∧ w.answer 3 = some (attempt 1 7,some (.pk .tooFrequent)) ∧ w.answer 4 = attemptOk 1 7 ∧
    Limited (passes w "100000003") := by
  obtain ⟨w,reach,shown⟩ := Machine.reachWith InTurn (fun w a => decide (InTurn w a)) (fun _ _ => of_decide_eq_true) turnActs
    (m := machine hourAgo) (s := .init bootInstant .empty)
    (P := fun w => decide (w.answer 2 = attemptOk 1 7) && decide (w.answer 3 = some (attempt 1 7,some (.pk .tooFrequent))) &&
      decide (w.answer 4 = attemptOk 1 7)) (by decide +kernel)
  simp only [Bool.and_eq_true,decide_eq_true_eq] at shown
  obtain ⟨⟨third,fourth⟩,fifth⟩ := shown
  exact ⟨w,reach,third,fourth,fifth,limitedInTurn reach "100000003"⟩

end Concrete
end OpenuuServer.PeerFrequency
