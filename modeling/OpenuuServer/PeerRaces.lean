import OpenuuServer.PeerSequence

/-! Concurrent registrations of one id. The check of the uuid and the write of it are separate
lock sections, and the table is written last, so that two first registrations can overlap and
a restart can fall in between. -/
namespace OpenuuServer.PeerRaces
open AtomicProgram UniqueTable IpText PeerRegistry PeerSequence

inductive Env where
  | tick (ns : Nat)
  | restart
  deriving DecidableEq

def machine (expired : Nat → Nat) : Machine Op Resp Call Env Registry Reply where
  program := fun _ c => program c
  exec := exec expired
  ready := fun _ _ => true
  env := fun
    | .tick ns,s => { s with now := s.now + ns }
    | .restart,s => s.restart
  kills := fun
    | .tick _ => false
    | .restart => true

abbrev World := Pool Op Resp Call Registry Reply

/- A RegisterPk for the id; the database works, and a new guid is not that of another id. -/
def Requests (id : String) (table : Peers) : Call → Prop
  | .registerPk rk _ newGuid out =>
    rk.id = id ∧ out = .none ∧ newGuid ≠ [] ∧ ∀ r ∈ table, r.id ≠ id → r.guid ≠ newGuid
  | _ => False

def OnlyRequests (id : String) (table : Peers) (_ : World) : Act Call Env → Prop
  | .start c => Requests id table c
  | _ => True

/- The check found the peer just as the request describes it: nothing is written, and the
answer is OK. -/
def unchanged : Call → Did Op Resp → Bool
  | .registerPk rk addr _ _,⟨.peerRead _,stored⟩ => checkPeer stored rk addr.ip.text = some (false,false)
  | _,_ => false

/- A write to the table. -/
def stores (d : Did Op Resp) : Bool := match d.1 with
  | .dbInsertPeer _ _ _ _ _ _ | .dbUpdatePk _ _ _ _ _ => true
  | _ => false

/- A write to the peer in memory. -/
def updates (d : Did Op Resp) : Bool := match d.1 with
  | .peerUpdate _ _ _ _ _ => true
  | _ => false

def Rowed (id : String) (s : Registry) : Prop := ∃ r ∈ s.table, r.id = id

section Programs

/- The pointer came from the map, for this id. -/
def Given (id : String) (done : List (Did Op Resp)) (ref : LockPeer) : Prop :=
  ⟨.mapRead id,some ref⟩ ∈ done ∨ (∃ row, ⟨.insertLoaded row id,ref⟩ ∈ done) ∨ ⟨.getOrInsert id,ref⟩ ∈ done

/- The write of memory that a write of the table follows. -/
def Updated (uuid guid : Bytes) (done : List (Did Op Resp)) : Prop :=
  ∃ ref addr pk ip info, ⟨.peerUpdate ref addr uuid pk ip,(info,guid)⟩ ∈ done

def Inserted (guid : Bytes) (done : List (Did Op Resp)) : Prop :=
  ∃ id uuid pk info newGuid fails, ⟨.dbInsertPeer id uuid pk info newGuid fails,.ok guid⟩ ∈ done

/- What a request may do next, by what it did before. -/
def Allowed (rk : RegisterPk) (newGuid : Bytes) (done : List (Did Op Resp)) : Op → Prop
  | .checkIpBlocker _ _ | .ipChange _ _ | .peerRead _ | .regPkRead _ | .regPkWrite _ _ => True
  | .mapRead id => id = rk.id
  | .dbGetPeer id fails => id = rk.id ∧ fails = false
  | .insertLoaded row id => id = rk.id ∧ ⟨.dbGetPeer rk.id false,.ok (some row)⟩ ∈ done
  | .getOrInsert id => id = rk.id ∧
    (⟨.dbGetPeer rk.id false,.ok none⟩ ∈ done ∨ ∃ e, ⟨.dbGetPeer rk.id false,.error e⟩ ∈ done)
  | .peerUpdate ref _ uuid _ _ => uuid = rk.uuid ∧ uuid ≠ [] ∧ Given rk.id done ref
  | .dbInsertPeer id uuid _ _ guid fails =>
    id = rk.id ∧ uuid = rk.uuid ∧ uuid ≠ [] ∧ guid = newGuid ∧ fails = false ∧ Updated rk.uuid [] done
  | .guidWrite _ guid => Inserted guid done
  | .dbUpdatePk guid id _ _ fails => id = rk.id ∧ guid ≠ [] ∧ fails = false ∧ Updated rk.uuid guid done
  | .peerRefresh _ _ => False

variable {rk : RegisterPk} {addr : SocketAddr} {newGuid : Bytes}

theorem updatePkAllowed (uuid : rk.uuid ≠ []) {done ref} (given : Given rk.id done ref) {ip : String} :
    (PeerMap.updatePk rk.id ref addr rk.uuid rk.pk ip newGuid .none).EveryAfter (Allowed rk newGuid) done := by
  unfold PeerMap.updatePk act
  simp only [performIs,bindOp,bindRet,everyAfterOp]
  refine ⟨⟨rfl,uuid,given⟩,fun r => ?_⟩
  obtain ⟨info,guid⟩ := r
  have updated : Updated rk.uuid guid (done ++ [⟨.peerUpdate ref addr rk.uuid rk.pk ip,(info,guid)⟩]) :=
    ⟨ref,addr,rk.pk,ip,info,by simp⟩
  by_cases first : guid = []
  · subst first
    simp only [List.isEmpty_nil,if_true,everyAfterOp]
    refine ⟨⟨rfl,rfl,uuid,rfl,rfl,updated⟩,fun inserted => ?_⟩
    cases inserted with
    | error e => exact trivial
    | ok guid =>
      have inserted : Inserted guid (done ++ [⟨.peerUpdate ref addr rk.uuid rk.pk ip,(info,[])⟩] ++
          [⟨.dbInsertPeer rk.id rk.uuid rk.pk info newGuid false,.ok guid⟩]) :=
        ⟨rk.id,rk.uuid,rk.pk,info,newGuid,false,by simp⟩
      exact ⟨inserted,fun _ => trivial⟩
  · have again : guid.isEmpty = false := by simpa using first
    simp only [again,Bool.false_eq_true,if_false,everyAfterOp]
    refine ⟨⟨rfl,first,rfl,updated⟩,fun written => ?_⟩
    cases written with
    | error e => exact trivial
    | ok done => exact trivial

theorem givenAppend {id done ref} (given : Given id done ref) (later : List (Did Op Resp)) :
    Given id (done ++ later) ref := by
  unfold Given at given ⊢
  rcases given with read | ⟨row,loaded⟩ | inserted
  · exact .inl (List.mem_append_left _ read)
  · exact .inr (.inl ⟨row,List.mem_append_left _ loaded⟩)
  · exact .inr (.inr (List.mem_append_left _ inserted))

theorem registerAtAllowed (uuid : rk.uuid ≠ []) {done ref} (given : Given rk.id done ref) :
    (registerAt rk addr newGuid .none ref).EveryAfter (Allowed rk newGuid) done := by
  have store : ∀ later, (PeerMap.updatePk rk.id ref addr rk.uuid rk.pk addr.ip.text newGuid .none >>= fun _ =>
      (.ret .ok : Prog Op Resp Result)).EveryAfter (Allowed rk newGuid) (done ++ later) :=
    fun later => everyAfterBind (updatePkAllowed uuid (givenAppend given later)) fun _ _ => trivial
  unfold registerAt act
  simp only [performIs,bindOp,bindRet,everyAfterOp]
  refine ⟨trivial,fun stored => ?_⟩
  cases checkPeer stored rk addr.ip.text with
  | none => exact trivial
  | some verdict =>
    obtain ⟨changed,ipChanged⟩ := verdict
    refine ⟨trivial,fun r => ?_⟩
    dsimp only
    cases countPk r.1 r.2 with
    | none => exact trivial
    | some regPk =>
      simp only [everyAfterOp,everyAfterIte,List.append_assoc,pureIsRet]
      exact ⟨trivial,fun _ => ⟨fun _ => ⟨trivial,fun _ => ⟨fun _ => store _,fun _ => trivial⟩⟩,
        fun _ => ⟨fun _ => store _,fun _ => trivial⟩⟩⟩

theorem requestAllowed (uuid : rk.uuid ≠ []) :
    (registerPkResult rk addr newGuid .none).EveryAfter (Allowed rk newGuid) [] := by
  unfold registerPkResult PeerMap.getOr PeerMap.get act
  simp only [performIs,bindOp,bindRet,everyAfterIte,everyAfterOp,pureIsRet,everyAfterRet,implies_true,true_and]
  refine fun _ => ⟨trivial,fun allowed => fun _ => ⟨rfl,fun read => ?_⟩⟩
  cases read with
  | some ref => exact registerAtAllowed uuid (.inl (by simp))
  | none =>
    refine ⟨⟨rfl,rfl⟩,fun loaded => ?_⟩
    cases loaded with
    | error e =>
      exact ⟨⟨rfl,.inr ⟨e,by simp [Outage.none]⟩⟩,fun ref => registerAtAllowed uuid (.inr (.inr (by simp)))⟩
    | ok row =>
      cases row with
      | some row =>
        exact ⟨⟨rfl,by simp [Outage.none]⟩,fun ref => registerAtAllowed uuid (.inr (.inl ⟨row,by simp⟩))⟩
      | none =>
        exact ⟨⟨rfl,.inl (by simp [Outage.none])⟩,fun ref => registerAtAllowed uuid (.inr (.inr (by simp)))⟩

/- What is known when a request has answered: an OK has its reason, and a write of memory was
followed by a write of the table. -/
structure Ended (c : Call) (done : List (Did Op Resp)) (reply : Reply) : Prop where
  reason : reply = .pk .ok → done.any (unchanged c) = true ∨ done.any stores = true
  stored : done.any updates = true → done.any stores = true

theorem updatePkStores {id ref uuid pk ip out done} :
    (PeerMap.updatePk id ref addr uuid pk ip newGuid out).Ends (fun done _ => done.any stores = true) done := by
  unfold PeerMap.updatePk act
  simp only [performIs,bindOp,bindRet,endsOp]
  intro r
  obtain ⟨info,guid⟩ := r
  by_cases first : guid.isEmpty = true
  · simp only [first,if_true,endsOp]
    intro inserted
    cases inserted with
    | error e => simp only [pureIsRet,endsRet,List.any_append,List.any_cons,stores,Bool.true_or,Bool.or_true]
    | ok guid => exact fun _ => by simp only [pureIsRet,endsRet,List.any_append,List.any_cons,stores,Bool.true_or,Bool.or_true]
  · simp only [first,Bool.false_eq_true,if_false,endsOp]
    intro written
    cases written <;> simp only [pureIsRet,endsRet,List.any_append,List.any_cons,stores,Bool.true_or,Bool.or_true]

variable {out : Outage}

theorem checkUnchanged {q : Peer} {ip : String} {ipChanged : Bool} (check : checkPeer q rk ip = some (false,ipChanged)) :
    ipChanged = false := by
  obtain ⟨bound,uuid,pk,same⟩ := checkSame check
  unfold checkPeer at check
  rw [if_neg (by simpa using bound),if_pos uuid,if_neg (by simp [same])] at check
  simpa [same] using (congrArg (Option.map Prod.snd) check).symm

theorem registerAtEnded {ref done} (quiet : done.any updates = false) :
    (registerAt rk addr newGuid out ref).Ends (fun done result => Ended (.registerPk rk addr newGuid out) done (.pk result))
      done := by
  have store : ∀ {done}, (PeerMap.updatePk rk.id ref addr rk.uuid rk.pk addr.ip.text newGuid out >>= fun _ =>
      (.ret .ok : Prog Op Resp Result)).Ends
        (fun done result => Ended (.registerPk rk addr newGuid out) done (.pk result)) done :=
    endsBind.mpr (endsMono (fun _ _ stores => ⟨fun _ => .inr stores,fun _ => stores⟩) updatePkStores)
  have refused : ∀ {r : Result} {done'}, r ≠ .ok → done'.any updates = false →
      Ended (.registerPk rk addr newGuid out) done' (.pk r) :=
    fun bad quiet => ⟨fun ok => absurd (Reply.pk.inj ok) bad,fun wrong => by rw [quiet] at wrong; cases wrong⟩
  have same : ∀ {done'}, done'.any (unchanged (.registerPk rk addr newGuid out)) = true → done'.any updates = false →
      Ended (.registerPk rk addr newGuid out) done' (.pk .ok) :=
    fun still quiet => ⟨fun _ => .inl still,fun wrong => by rw [quiet] at wrong; cases wrong⟩
  unfold registerAt act
  simp only [performIs,bindOp,bindRet,endsOp]
  intro peer
  cases check : checkPeer peer rk addr.ip.text with
  | none => exact refused (by simp) (by simp only [List.any_append,List.any_cons,List.any_nil,quiet,updates,Bool.or_self])
  | some verdict =>
    obtain ⟨changed,ipChanged⟩ := verdict
    intro r
    dsimp only
    cases countPk r.1 r.2 with
    | none => exact refused (by simp) (by simp only [List.any_append,List.any_cons,List.any_nil,quiet,updates,Bool.or_self])
    | some regPk =>
      simp only [endsOp,endsIte,pureIsRet,endsRet]
      have found : ¬ changed = true → unchanged (.registerPk rk addr newGuid out) ⟨.peerRead ref,peer⟩ = true := by
        intro still
        cases changed with
        | true => exact absurd rfl still
        | false =>
          cases checkUnchanged check
          exact decide_eq_true check
      refine fun _ => ⟨fun _ _ => ⟨fun _ => store,fun still => ?_⟩,fun _ => ⟨fun _ => store,fun still => ?_⟩⟩
      all_goals
        refine same ?_ (by simp only [List.any_append,List.any_cons,List.any_nil,quiet,updates,Bool.or_self])
        simp only [List.any_append,List.any_cons,found still,Bool.true_or,Bool.or_true]

theorem requestEnded {c : Call} : (program c).Ends (Ended c) [] := by
  have silent : ∀ {done reply}, reply ≠ .pk .ok → done.any updates = false → Ended c done reply :=
    fun bad quiet => ⟨fun ok => absurd ok bad,fun wrong => by rw [quiet] at wrong; cases wrong⟩
  unfold program
  cases c with
  | registerPk rk addr newGuid out =>
    simp only [endsIte,pureIsRet,endsRet,endsMap]
    refine ⟨fun _ => silent (by simp) rfl,fun _ => ?_⟩
    unfold registerPkResult PeerMap.getOr PeerMap.get act
    simp only [performIs,bindOp,bindRet,endsIte,endsOp,pureIsRet,endsRet]
    refine ⟨fun _ => silent (by simp) rfl,fun _ allowed => ⟨fun _ => silent (by simp) rfl,fun _ read => ?_⟩⟩
    cases read with
    | some ref => exact registerAtEnded rfl
    | none =>
      intro loaded
      cases loaded with
      | error e => exact fun _ => registerAtEnded rfl
      | ok row => cases row <;> exact fun _ => registerAtEnded rfl
  | registerPeer id addr =>
    simp only [endsIte,pureIsRet,endsRet,endsMap]
    refine ⟨fun _ => silent (by simp) rfl,fun _ => ?_⟩
    unfold registerPeerResponse act
    simp only [performIs,bindOp,endsOp]
    intro old
    cases old with
    | none => exact silent (by simp) rfl
    | some ref => exact fun _ => silent (by simp) rfl
  | get id fails =>
    simp only [endsMap]
    unfold PeerMap.get act
    simp only [performIs,bindOp,endsOp]
    intro read
    cases read with
    | some ref => exact silent (by simp) rfl
    | none =>
      intro loaded
      cases loaded with
      | error e => exact silent (by simp) rfl
      | ok row =>
        cases row with
        | none => exact silent (by simp) rfl
        | some row => exact fun _ => silent (by simp) rfl

end Programs

section States
variable {id : String} {first : Peers} {s : Registry}

/- What is true of memory and table whatever the requests in progress: one uuid, and a peer
without uuid is the only one in memory and has no row. -/
structure Consistent (id : String) (first : Peers) (s : Registry) : Prop where
  one : ∃ uuid, (∀ p ∈ s.heap, p.uuid ≠ [] → p.uuid = uuid) ∧ ∀ r ∈ s.table, r.id = id → r.uuid = uuid
  alone : ∀ p ∈ s.heap, p.uuid = [] → s.heap.length = 1 ∧ ¬ Rowed id s
  empty : s.map.lookup id = none → s.heap = []
  inside : ∀ ref, s.map.lookup id = some ref → ref.number < s.heap.length
  owned : ∀ p ∈ s.heap, p.guid ≠ [] → ∃ r ∈ s.table, r.id = id ∧ r.guid = p.guid
  proper : ∀ r ∈ s.table, r.id = id → r.guid ≠ [] ∧ r.uuid ≠ []
  others : ∀ r ∈ s.table, r.id ≠ id → r ∈ first

/- What no step but a restart takes back. -/
structure Grows (id : String) (s s' : Registry) : Prop where
  heap : s.heap.length ≤ s'.heap.length
  uuids : ∀ p ∈ s.heap, p.uuid ≠ [] → ∃ p' ∈ s'.heap, p'.uuid = p.uuid
  rows : ∀ r ∈ s.table, r.id = id → ∃ r' ∈ s'.table, r'.id = id ∧ r'.uuid = r.uuid ∧ r'.guid = r.guid
  map : s'.map.lookup id = none → s.map.lookup id = none
  noRow : s'.map.lookup id = none → ¬ Rowed id s → ¬ Rowed id s'

/- What a request in progress knows from an operation it executed. -/
def Knows (id : String) (s : Registry) : Did Op Resp → Prop
  | ⟨.mapRead _,some ref⟩ => ref.number < s.heap.length
  | ⟨.insertLoaded _ _,ref⟩ => LockPeer.number ref < s.heap.length
  | ⟨.getOrInsert _,ref⟩ => LockPeer.number ref < s.heap.length
  | ⟨.dbGetPeer _ fails,.error _⟩ => fails = true
  | ⟨.dbGetPeer _ _,.ok (some r)⟩ => ∃ r' ∈ s.table, r'.id = id ∧ r'.uuid = r.uuid ∧ r'.guid = r.guid
  | ⟨.dbGetPeer _ _,.ok none⟩ => s.map.lookup id = none → ¬ Rowed id s
  | ⟨.peerUpdate _ _ uuid _ _,(_,guid)⟩ =>
    (uuid ≠ [] → ∃ p ∈ s.heap, p.uuid = uuid) ∧ (guid ≠ [] → ∃ r ∈ s.table, r.id = id ∧ r.guid = guid)
  | ⟨.dbInsertPeer _ _ _ _ _ _,.ok guid⟩ => ∃ r ∈ s.table, r.id = id ∧ r.guid = guid
  | _ => True

theorem knowsStill {s s' : Registry} (grows : Grows id s s') (d : Did Op Resp) (known : Knows id s d) : Knows id s' d := by
  obtain ⟨o,r⟩ := d
  cases o with
  | mapRead id' =>
    cases r with
    | none => trivial
    | some ref => exact Nat.lt_of_lt_of_le known grows.heap
  | insertLoaded row id' => exact Nat.lt_of_lt_of_le known grows.heap
  | getOrInsert id' => exact Nat.lt_of_lt_of_le known grows.heap
  | dbGetPeer id' fails =>
    cases r with
    | error e => exact known
    | ok row =>
      cases row with
      | some row =>
        obtain ⟨a,member,mine,uuid,guid⟩ := known
        obtain ⟨b,there,mine',uuid',guid'⟩ := grows.rows a member mine
        exact ⟨b,there,mine',uuid'.trans uuid,guid'.trans guid⟩
      | none => exact fun absent => grows.noRow absent (known (grows.map absent))
  | peerUpdate ref addr uuid pk ip =>
    refine ⟨fun bound => ?_,fun again => ?_⟩
    · obtain ⟨p,member,same⟩ := known.1 bound
      obtain ⟨p',there,same'⟩ := grows.uuids p member (by rw [same]; exact bound)
      exact ⟨p',there,same'.trans same⟩
    · obtain ⟨a,member,mine,guid⟩ := known.2 again
      obtain ⟨b,there,mine',_,guid'⟩ := grows.rows a member mine
      exact ⟨b,there,mine',guid'.trans guid⟩
  | dbInsertPeer id' uuid pk info newGuid fails =>
    cases r with
    | error e => trivial
    | ok guid =>
      obtain ⟨a,member,mine,guid⟩ := known
      obtain ⟨b,there,mine',_,guid'⟩ := grows.rows a member mine
      exact ⟨b,there,mine',guid'.trans guid⟩
  | _ => trivial

theorem memModify {α : Type} {l : List α} {n : Nat} {f : α → α} {a : α} (member : a ∈ l.modify n f) :
    a ∈ l ∨ ∃ b, l[n]? = some b ∧ a = f b := by
  obtain ⟨k,found⟩ := List.getElem?_of_mem member
  rw [List.getElem?_modify,Option.map_eq_map,Option.map_eq_some_iff] at found
  obtain ⟨b,there,same⟩ := found
  by_cases here : n = k
  · subst here
    exact .inr ⟨b,there,by rw [← same,if_pos rfl]⟩
  · rw [if_neg here] at same
    exact .inl (by rw [← same]; exact List.mem_of_getElem? there)

/- Both directions of a step: what it must not break and what it may not take back. -/
structure Steady (id : String) (first : Peers) (s s' : Registry) : Prop where
  consistent : Consistent id first s'
  grows : Grows id s s'

theorem steadySame (consistent : Consistent id first s) {s' : Registry} (heap : s'.heap = s.heap) (map : s'.map = s.map)
    (table : s'.table = s.table) : Steady id first s s' := by
  obtain ⟨now,t,m,h,blocker,changes⟩ := s'
  simp only at heap map table
  subst heap map table
  obtain ⟨one,alone,empty,inside,owned,proper,others⟩ := consistent
  exact ⟨⟨one,alone,empty,inside,owned,proper,others⟩,
    ⟨Nat.le_refl _,fun p member _ => ⟨p,member,rfl⟩,fun r member mine => ⟨r,member,mine,rfl,rfl⟩,fun h => h,fun _ h => h⟩⟩

/- A peer that is loaded from a row of the id, or the first one while there is no row. -/
theorem steadyAllocated (consistent : Consistent id first s) {p : Peer}
    (loaded : (∃ r ∈ s.table, r.id = id ∧ r.uuid = p.uuid ∧ r.guid = p.guid) ∨
      s.map.lookup id = none ∧ ¬ Rowed id s ∧ p.uuid = [] ∧ p.guid = []) :
    Steady id first s (s.allocate id p).2 := by
  have new : (s.allocate id p).2.map.lookup id = some ⟨id,s.heap.length⟩ := AList.lookup_insert _
  have heap : ∀ {q}, q ∈ (s.allocate id p).2.heap ↔ q ∈ s.heap ∨ q = p := by simp [Registry.allocate]
  obtain ⟨⟨uuid,peers,rows⟩,alone,empty,inside,owned,proper,others⟩ := consistent
  refine ⟨⟨?_,?_,?_,?_,?_,proper,others⟩,⟨?_,?_,?_,?_,?_⟩⟩
  · refine ⟨uuid,fun q member bound => ?_,rows⟩
    rcases heap.mp member with old | rfl
    · exact peers q old bound
    · rcases loaded with ⟨r,inTable,mine,same,_⟩ | ⟨_,_,unbound,_⟩
      · exact same.symm.trans (rows r inTable mine)
      · exact absurd unbound bound
  · intro q member unbound
    rcases loaded with ⟨r,inTable,mine,same,_⟩ | ⟨absent,noRow,_,_⟩
    · have rowed : Rowed id s := ⟨r,inTable,mine⟩
      rcases heap.mp member with old | rfl
      · exact absurd rowed (alone q old unbound).2
      · exact absurd (same.trans unbound) (proper r inTable mine).2
    · refine ⟨?_,noRow⟩
      simp [Registry.allocate,empty absent]
  · intro absent
    rw [new] at absent
    cases absent
  · intro ref found
    cases Option.some.inj (new.symm.trans found)
    simp [Registry.allocate]
  · intro q member guid
    rcases heap.mp member with old | rfl
    · exact owned q old guid
    · rcases loaded with ⟨r,inTable,mine,_,same⟩ | ⟨_,_,_,none⟩
      · exact ⟨r,inTable,mine,same⟩
      · exact absurd none guid
  · simp [Registry.allocate]
  · exact fun q member _ => ⟨q,heap.mpr (.inl member),rfl⟩
  · exact fun r member mine => ⟨r,member,mine,rfl,rfl⟩
  · intro absent
    rw [new] at absent
    cases absent
  · exact fun _ noRow => noRow

/- A write to a peer that leaves its uuid alone or binds it as the guard says, and gives it no
guid but that of the row. -/
theorem steadyAmended (consistent : Consistent id first s) {ref : LockPeer} {f : Peer → Peer}
    (uuid : ∀ q, s.heap[ref.number]? = some q → (f q).uuid = q.uuid ∨
      (f q).uuid ≠ [] ∧ (q.uuid = [] ∨ q.uuid = (f q).uuid))
    (guid : ∀ q, (f q).guid = q.guid ∨ ∃ r ∈ s.table, r.id = id ∧ r.guid = (f q).guid) :
    Steady id first s (s.amend ref f) := by
  have length : (s.amend ref f).heap.length = s.heap.length := by simp [Registry.amend]
  obtain ⟨⟨u,peers,rows⟩,alone,empty,inside,owned,proper,others⟩ := consistent
  refine ⟨⟨?_,?_,?_,?_,?_,proper,others⟩,⟨Nat.le_of_eq length.symm,?_,?_,fun h => h,fun _ h => h⟩⟩
  · by_cases binds : ∃ q, s.heap[ref.number]? = some q ∧ q.uuid = [] ∧ (f q).uuid ≠ []
    · -- the only peer in memory, and no row yet: the uuid is whatever is written
      obtain ⟨q,here,unbound,bound⟩ := binds
      obtain ⟨single,noRow⟩ := alone q (List.mem_of_getElem? here) unbound
      refine ⟨(f q).uuid,fun p member there => ?_,fun r inTable mine => absurd ⟨r,inTable,mine⟩ noRow⟩
      rcases memModify member with old | ⟨b,found,rfl⟩
      · obtain ⟨a,only⟩ := List.length_eq_one_iff.mp single
        rw [only,List.mem_singleton] at old
        have q' := List.mem_of_getElem? here
        rw [only,List.mem_singleton] at q'
        rw [old,← q',unbound] at there
        exact absurd rfl there
      · cases Option.some.inj (here.symm.trans found)
        rfl
    · refine ⟨u,fun p member bound => ?_,rows⟩
      rcases memModify member with old | ⟨b,found,rfl⟩
      · exact peers p old bound
      · have known : b.uuid = (f b).uuid := by
          rcases uuid b found with same | ⟨_,none | same⟩
          · exact same.symm
          · exact absurd ⟨b,found,none,bound⟩ binds
          · exact same
        rw [← known] at bound ⊢
        exact peers b (List.mem_of_getElem? found) bound
  · intro p member unbound
    rw [length]
    rcases memModify member with old | ⟨b,found,rfl⟩
    · exact alone p old unbound
    · rcases uuid b found with same | ⟨bound,_⟩
      · exact alone b (List.mem_of_getElem? found) (same.symm.trans unbound)
      · exact absurd unbound bound
  · intro absent
    exact List.eq_nil_of_length_eq_zero (by rw [length,empty absent]; rfl)
  · intro ref' found
    rw [length]
    exact inside ref' found
  · intro p member some
    rcases memModify member with old | ⟨b,found,rfl⟩
    · exact owned p old some
    · rcases guid b with same | row
      · rw [same] at some ⊢
        exact owned b (List.mem_of_getElem? found) some
      · exact row
  · intro p member bound
    obtain ⟨k,found⟩ := List.getElem?_of_mem member
    have there : (s.amend ref f).heap[k]? = some (if ref.number = k then f p else p) := by
      simp [Registry.amend,List.getElem?_modify,found]
    refine ⟨_,List.mem_of_getElem? there,?_⟩
    split
    · rename_i here
      subst here
      rcases uuid p found with same | ⟨_,none | same⟩
      · exact same
      · exact absurd none bound
      · exact same.symm
    · rfl
  · exact fun r member mine => ⟨r,member,mine,rfl,rfl⟩

theorem steadyInserted (consistent : Consistent id first s) {r : PeerRow} {t} (done : s.table.insert r = some t)
    (mine : r.id = id) (guid : r.guid ≠ []) {p} (member : p ∈ s.heap) (same : p.uuid = r.uuid) (uuid : r.uuid ≠ []) :
    Steady id first s { s with table := t } := by
  obtain ⟨⟨u,peers,rows⟩,alone,empty,inside,owned,proper,others⟩ := consistent
  have old : ∀ a ∈ s.table, a ∈ t := fun a there => (memInsert done).mpr (.inl there)
  have bound : u = r.uuid := (peers p member (by rw [same]; exact uuid)).symm.trans same
  refine ⟨⟨⟨u,peers,fun a there mine' => ?_⟩,fun q here unbound => ?_,empty,inside,fun q here some => ?_,
      fun a there mine' => ?_,fun a there other => ?_⟩,⟨Nat.le_refl _,fun q here _ => ⟨q,here,rfl⟩,
      fun a there mine' => ⟨a,old a there,mine',rfl,rfl⟩,fun h => h,fun absent _ => ?_⟩⟩
  · rcases (memInsert done).mp there with inTable | rfl
    · exact rows a inTable mine'
    · exact bound.symm
  · -- a peer without uuid would be the only one, but there is one with the uuid of the row
    obtain ⟨single,_⟩ := alone q here unbound
    obtain ⟨only,heap⟩ := List.length_eq_one_iff.mp single
    rw [heap,List.mem_singleton] at here member
    rw [here,← member,same] at unbound
    exact absurd unbound uuid
  · obtain ⟨a,inTable,mine',guid'⟩ := owned q here some
    exact ⟨a,old a inTable,mine',guid'⟩
  · rcases (memInsert done).mp there with inTable | rfl
    · exact proper a inTable mine'
    · exact ⟨guid,uuid⟩
  · rcases (memInsert done).mp there with inTable | rfl
    · exact others a inTable other
    · exact absurd mine other
  · rw [empty absent] at member
    cases member

theorem steadyRewritten (consistent : Consistent id first s) {r : PeerRow} (member : r ∈ s.table) (mine : r.id = id)
    {pk : Bytes} {info : PeerInfo} {t} (rows : ∀ a, a ∈ t ↔ a ∈ s.table ∧ a ≠ r ∨ a = { r with pk := pk,info := info }) :
    Steady id first s { s with table := t } := by
  obtain ⟨⟨u,peers,rows'⟩,alone,empty,inside,owned,proper,others⟩ := consistent
  have kept : ∀ a ∈ s.table, a.id = id → ∃ b ∈ t, b.id = id ∧ b.uuid = a.uuid ∧ b.guid = a.guid := by
    intro a there mine'
    by_cases same : a = r
    · subst same
      exact ⟨_,(rows _).mpr (.inr rfl),mine,rfl,rfl⟩
    · exact ⟨a,(rows a).mpr (.inl ⟨there,same⟩),mine',rfl,rfl⟩
  have rowed : Rowed id s := ⟨r,member,mine⟩
  refine ⟨⟨⟨u,peers,fun a there mine' => ?_⟩,fun q here unbound => absurd rowed (alone q here unbound).2,empty,inside,
      fun q here some => ?_,fun a there mine' => ?_,fun a there other => ?_⟩,
      ⟨Nat.le_refl _,fun q here _ => ⟨q,here,rfl⟩,kept,fun h => h,fun _ noRow => absurd rowed noRow⟩⟩
  · rcases (rows a).mp there with ⟨inTable,_⟩ | rfl
    · exact rows' a inTable mine'
    · exact rows' r member mine
  · obtain ⟨a,inTable,mine',guid⟩ := owned q here some
    obtain ⟨b,there,mine'',_,guid'⟩ := kept a inTable mine'
    exact ⟨b,there,mine'',guid'.trans guid⟩
  · rcases (rows a).mp there with ⟨inTable,_⟩ | rfl
    · exact proper a inTable mine'
    · exact proper r member mine
  · rcases (rows a).mp there with ⟨inTable,_⟩ | rfl
    · exact others a inTable other
    · exact absurd mine other

/- What the state must allow for an operation of a request. -/
def Fits (id : String) (first : Peers) (s : Registry) : Op → Prop
  | .mapRead id' => id' = id
  | .dbGetPeer id' fails => id' = id ∧ fails = false
  | .insertLoaded row id' => id' = id ∧ ∃ r ∈ s.table, r.id = id ∧ r.uuid = row.uuid ∧ r.guid = row.guid
  | .getOrInsert id' => id' = id ∧ (s.map.lookup id = none → ¬ Rowed id s)
  | .peerUpdate ref _ uuid _ _ =>
    uuid ≠ [] ∧ ref.number < s.heap.length ∧ ((s.peer ref).uuid = [] ∨ (s.peer ref).uuid = uuid)
  | .dbInsertPeer id' uuid _ _ guid fails => id' = id ∧ uuid ≠ [] ∧ fails = false ∧ guid ≠ [] ∧
    (∃ p ∈ s.heap, p.uuid = uuid) ∧ ∀ r ∈ first, r.id ≠ id → r.guid ≠ guid
  | .guidWrite _ guid => ∃ r ∈ s.table, r.id = id ∧ r.guid = guid
  | .dbUpdatePk guid id' _ _ fails => id' = id ∧ fails = false ∧ ∃ r ∈ s.table, r.id = id ∧ r.guid = guid
  | .peerRefresh _ _ => False
  | _ => True

theorem steadyStep (expired : Nat → Nat) (consistent : Consistent id first s) {o : Op} (fits : Fits id first s o) :
    Steady id first s (exec expired o s).2 ∧ Knows id (exec expired o s).2 ⟨o,(exec expired o s).1⟩ := by
  have still : Steady id first s s := steadySame consistent rfl rfl rfl
  cases o with
  | checkIpBlocker ip id' => exact ⟨steadySame consistent rfl rfl rfl,trivial⟩
  | ipChange id' ip => exact ⟨steadySame consistent rfl rfl rfl,trivial⟩
  | peerRead ref => exact ⟨still,trivial⟩
  | regPkRead ref => exact ⟨still,trivial⟩
  | regPkWrite ref regPk => exact ⟨steadyAmended consistent (fun q _ => .inl rfl) fun q => .inl rfl,trivial⟩
  | mapRead id' =>
    have mine : id' = id := fits
    subst mine
    refine ⟨still,?_⟩
    show Knows id' s ⟨.mapRead id',s.map.lookup id'⟩
    cases found : s.map.lookup id' with
    | none => trivial
    | some ref => exact consistent.inside ref found
  | dbGetPeer id' fails =>
    obtain ⟨rfl,rfl⟩ := fits
    refine ⟨still,?_⟩
    show Knows id' s ⟨.dbGetPeer id' false,.ok (row s id')⟩
    cases found : row s id' with
    | none => exact fun _ rowed => by obtain ⟨r,member,mine⟩ := rowed; exact rowNone found r member mine
    | some r => exact ⟨r,(rowIs found).1,(rowIs found).2,rfl,rfl⟩
  | insertLoaded row id' =>
    obtain ⟨rfl,rowed⟩ := fits
    refine ⟨steadyAllocated consistent (.inl rowed),?_⟩
    show s.heap.length < (s.heap ++ [_]).length
    simp
  | getOrInsert id' =>
    obtain ⟨rfl,noRow⟩ := fits
    cases found : s.map.lookup id' with
    | some ref =>
      simp only [exec,found]
      exact ⟨still,consistent.inside ref found⟩
    | none =>
      simp only [exec,found]
      refine ⟨steadyAllocated consistent (.inr ⟨found,noRow found,rfl,rfl⟩),?_⟩
      show s.heap.length < (s.heap ++ [_]).length
      simp
  | peerUpdate ref addr uuid pk ip =>
    obtain ⟨bound,inside,guard⟩ := fits
    have peer : s.heap[ref.number]? = some (s.peer ref) := by
      simp [Registry.peer,List.getD_eq_getElem?_getD,List.getElem?_eq_getElem inside]
    have steady : Steady id first s (exec expired (.peerUpdate ref addr uuid pk ip) s).2 := by
      refine steadyAmended consistent (fun q here => ?_) fun q => .inl rfl
      cases Option.some.inj (peer.symm.trans here)
      exact .inr ⟨bound,guard⟩
    refine ⟨steady,fun _ => ?_,fun again => ?_⟩
    · have there : (exec expired (.peerUpdate ref addr uuid pk ip) s).2.heap[ref.number]? =
          some ((s.peer ref).register addr uuid pk ip s.now) := by
        simp [exec,Registry.amend,peer]
      exact ⟨_,List.mem_of_getElem? there,rfl⟩
    · exact consistent.owned _ (List.mem_of_getElem? peer) again
  | dbInsertPeer id' uuid pk info guid fails =>
    obtain ⟨rfl,bound,rfl,some,⟨p,member,same⟩,_⟩ := fits
    cases done : s.table.insert ⟨guid,id',uuid,pk,info⟩ with
    | none =>
      simp only [exec,done,Bool.false_eq_true,if_false]
      exact ⟨still,trivial⟩
    | some t =>
      simp only [exec,done,Bool.false_eq_true,if_false]
      exact ⟨steadyInserted consistent done rfl some member same bound,_,(memInsert done).mpr (.inr rfl),rfl,rfl⟩
  | guidWrite ref guid =>
    exact ⟨steadyAmended consistent (fun q _ => .inl rfl) fun q => .inr fits,trivial⟩
  | dbUpdatePk guid id' pk info fails =>
    obtain ⟨rfl,rfl,r,member,mine,rfl⟩ := fits
    obtain ⟨t,done,rows⟩ := rowRewritten member ⟨id',[],pk⟩ info.ip mine
    unfold rewrite at done
    simp only [exec,Bool.false_eq_true,if_false]
    rw [show (⟨info.ip⟩ : PeerInfo) = info from rfl] at done
    simp only [done]
    exact ⟨steadyRewritten consistent member mine rows,trivial⟩
  | peerRefresh ref addr => exact fits.elim

/- Where a uuid in memory comes from if it is not written now. -/
theorem boundBefore {expired : Nat → Nat} {o : Op} (fits : Fits id first s o)
    (reads : ∀ ref addr uuid pk ip, o ≠ .peerUpdate ref addr uuid pk ip) {p}
    (member : p ∈ (exec expired o s).2.heap) (bound : p.uuid ≠ []) : Rowed id s ∨ ∃ q ∈ s.heap, q.uuid ≠ [] := by
  have old : p ∈ s.heap → Rowed id s ∨ ∃ q ∈ s.heap, q.uuid ≠ [] := fun there => .inr ⟨p,there,bound⟩
  have amended : ∀ ref (f : Peer → Peer), (∀ q, (f q).uuid = q.uuid) → p ∈ (s.amend ref f).heap →
      Rowed id s ∨ ∃ q ∈ s.heap, q.uuid ≠ [] := by
    intro ref f same there
    rcases memModify there with there | ⟨q,found,rfl⟩
    · exact old there
    · exact .inr ⟨q,List.mem_of_getElem? found,by rw [← same]; exact bound⟩
  cases o with
  | peerUpdate ref addr uuid pk ip => exact absurd rfl (reads ref addr uuid pk ip)
  | peerRefresh ref addr => exact fits.elim
  | regPkWrite ref regPk => exact amended ref (fun q => { q with regPk := regPk }) (fun q => rfl) member
  | guidWrite ref guid => exact amended ref (fun q => { q with guid := guid }) (fun q => rfl) member
  | insertLoaded row id' =>
    obtain ⟨_,r,there,mine,_⟩ := fits
    exact .inl ⟨r,there,mine⟩
  | getOrInsert id' =>
    simp only [exec] at member
    split at member
    · exact old member
    · rcases List.mem_append.mp member with there | new
      · exact old there
      · rw [List.mem_singleton.mp new] at bound
        exact absurd rfl bound
  | dbInsertPeer id' uuid pk info guid fails =>
    simp only [exec] at member
    split at member
    · exact old member
    · split at member <;> exact old member
  | dbUpdatePk guid id' pk info fails =>
    simp only [exec] at member
    split at member
    · exact old member
    · split at member <;> exact old member
  | _ => exact old member

theorem storesRow {expired : Nat → Nat} (consistent : Consistent id first s) {o : Op} (fits : Fits id first s o)
    (store : stores ⟨o,(exec expired o s).1⟩ = true) : Rowed id (exec expired o s).2 := by
  have steady := (steadyStep expired consistent fits).1
  cases o with
  | dbInsertPeer id' uuid pk info guid fails =>
    obtain ⟨rfl,_,rfl,_,_,unused⟩ := fits
    cases done : s.table.insert ⟨guid,id',uuid,pk,info⟩ with
    | some t =>
      simp only [exec,done,Bool.false_eq_true,if_false]
      exact ⟨_,(memInsert done).mpr (.inr rfl),rfl⟩
    | none =>
      -- the guid is not that of another id, so that the id has a row
      simp only [exec,done,Bool.false_eq_true,if_false]
      by_contra noRow
      have free : (s.table.insert ⟨guid,id',uuid,pk,info⟩).isSome = true := by
        refine insertIsSome.mpr fun a there clash => ?_
        have other : a.id ≠ id' := fun mine => noRow ⟨a,there,mine⟩
        rcases clash with same | same
        · exact unused a (consistent.others a there other) other same
        · exact other same
      rw [done] at free
      cases free
  | dbUpdatePk guid id' pk info fails =>
    obtain ⟨_,_,r,member,mine,_⟩ := fits
    obtain ⟨r',there,mine',_⟩ := steady.grows.rows r member mine
    exact ⟨r',there,mine'⟩
  | _ => cases store

/- The uuid is in memory or in the table. -/
def Holds (id : String) (s : Registry) (uuid : Bytes) : Prop :=
  uuid ≠ [] ∧ ((∃ r ∈ s.table, r.id = id ∧ r.uuid = uuid) ∨ ∃ p ∈ s.heap, p.uuid = uuid)

theorem holdsStill {s' : Registry} (grows : Grows id s s') {uuid} (holds : Holds id s uuid) : Holds id s' uuid := by
  obtain ⟨bound,⟨r,member,mine,same⟩ | ⟨p,member,same⟩⟩ := holds
  · obtain ⟨r',there,mine',same',_⟩ := grows.rows r member mine
    exact ⟨bound,.inl ⟨r',there,mine',same'.trans same⟩⟩
  · obtain ⟨p',there,same'⟩ := grows.uuids p member (by rw [same]; exact bound)
    exact ⟨bound,.inr ⟨p',there,same'.trans same⟩⟩

theorem holdsRow (consistent : Consistent id first s) {uuid} (holds : Holds id s uuid) {r} (member : r ∈ s.table)
    (mine : r.id = id) : r.uuid = uuid := by
  obtain ⟨u,peers,rows⟩ := consistent.one
  obtain ⟨bound,⟨a,there,mine',same⟩ | ⟨p,there,same⟩⟩ := holds
  · rw [rows r member mine,← same,rows a there mine']
  · rw [rows r member mine,← same,peers p there (by rw [same]; exact bound)]

theorem holdsOne (consistent : Consistent id first s) {uuid uuid'} (one : Holds id s uuid) (other : Holds id s uuid') :
    uuid = uuid' := by
  obtain ⟨u,peers,rows⟩ := consistent.one
  have same : ∀ {uuid}, Holds id s uuid → uuid = u := by
    rintro uuid ⟨bound,⟨a,there,mine,same⟩ | ⟨p,there,same⟩⟩
    · rw [← same,rows a there mine]
    · rw [← same,peers p there (by rw [same]; exact bound)]
  rw [same one,same other]

theorem peerMember {ref : LockPeer} (bound : (s.peer ref).uuid ≠ []) : s.peer ref ∈ s.heap := by
  unfold Registry.peer at bound ⊢
  rw [List.getD_eq_getElem?_getD] at bound ⊢
  cases found : s.heap[ref.number]? with
  | none =>
    rw [found] at bound
    exact absurd rfl bound
  | some p => exact List.mem_of_getElem? found

end States

section Runs
variable {expired : Nat → Nat} {id : String} {first : Peers} {w : World}

/- The task is about to write its uuid over another one. -/
def overwrites (w : World) (i : Nat) : Bool :=
  match w.next i with
  | some (.peerUpdate ref _ uuid _ _) => !(w.shared.peer ref).uuid.isEmpty && (w.shared.peer ref).uuid != uuid
  | _ => false

/- The two ways to lose the binding are kept out: a request writes its uuid over that of
another one, and a restart forgets a uuid that a request relied on before the table has it. -/
def Unrivalled (id : String) (w : World) : Act Call Env → Prop
  | .advance i => overwrites w i = false
  | .env .restart => Rowed id w.shared ∨ ∀ e ∈ w.log, unchanged e.call e.did = false
  | _ => True

structure Racing (id : String) (first : Peers) (w : World) : Prop where
  state : Consistent id first w.shared
  known : ∀ i, w.Running i → ∀ d ∈ w.didsOf i, Knows id w.shared d
  pending : (∃ p ∈ w.shared.heap, p.uuid ≠ []) → Rowed id w.shared ∨
    ∃ i t, w.tasks[i]? = some t ∧ t.alive = true ∧ (w.didsOf i).any updates = true
  reasons : ∀ e ∈ w.log, ∀ rk addr newGuid out, e.call = .registerPk rk addr newGuid out →
    (unchanged e.call e.did = true ∨ stores e.did = true → Holds id w.shared rk.uuid) ∧
      (stores e.did = true → Rowed id w.shared)

abbrev Step (id : String) (first : Peers) (w : World) (a : Act Call Env) : Prop :=
  OnlyRequests id first w a ∧ Unrivalled id w a

variable {s : Registry}

theorem requested {ok : World → Act Call Env → Prop} (only : ∀ w a, ok w a → OnlyRequests id first w a)
    (reach : (machine expired).Reach ok s w) : ∀ c ∈ w.calls, Requests id first c := by
  refine Machine.callsInduction (P := fun calls => ∀ c ∈ calls, Requests id first c) (by simp) ?_ reach
  intro w c _ meets ih c' member
  rcases List.mem_append.mp member with old | new
  · exact ih c' old
  · rw [List.mem_singleton.mp new]
    exact only w _ meets

/- The operation a request is about to execute, with what the program says about it. -/
theorem allowedNow {ok : World → Act Call Env → Prop} (only : ∀ w a, ok w a → OnlyRequests id first w a)
    (reach : (machine expired).Reach ok s w) {i c o next} (found : w.tasks[i]? = some ⟨c,.op o next,true⟩) :
    ∃ rk addr newGuid, c = .registerPk rk addr newGuid .none ∧ Requests id first c ∧ rk.uuid ≠ [] ∧
      Allowed rk newGuid (w.didsOf i) o := by
  have requests := requested only reach c (List.mem_of_getElem? (callAt found))
  have path := Machine.taskPath reach found
  cases c with
  | registerPk rk addr newGuid out =>
    obtain ⟨mine,rfl,rest⟩ := requests
    simp only [machine,program] at path
    rcases pathIte path with ⟨_,silent⟩ | ⟨proper,path⟩
    · obtain ⟨_,wrong⟩ := pathRet.mp silent
      cases wrong
    · have uuid : rk.uuid ≠ [] := by
        intro empty
        exact proper (by simp [empty])
      have all : (Reply.pk <$> registerPkResult rk addr newGuid .none).EveryAfter (Allowed rk newGuid) [] :=
        everyAfterMap.mpr (requestAllowed uuid)
      have here := everyAfterOnPath path all
      exact ⟨rk,addr,newGuid,rfl,⟨mine,rfl,rest⟩,uuid,by simpa using here.1⟩
  | _ => exact requests.elim

theorem fitsNow (racing : Racing id first w) {i c o next} (found : w.tasks[i]? = some ⟨c,.op o next,true⟩)
    {rk : RegisterPk} {addr newGuid} (call : c = .registerPk rk addr newGuid .none) (requests : Requests id first c)
    (uuid : rk.uuid ≠ []) (allowed : Allowed rk newGuid (w.didsOf i) o) (guard : Unrivalled id w (.advance i)) :
    Fits id first w.shared o := by
  subst call
  obtain ⟨rfl,_,guid,unused⟩ := requests
  have known := racing.known i ⟨_,o,next,found⟩
  have held : ∀ {ref}, Given rk.id (w.didsOf i) ref → ref.number < w.shared.heap.length := by
    rintro ref (read | ⟨row,loaded⟩ | inserted)
    · exact known _ read
    · exact known _ loaded
    · exact known _ inserted
  cases o with
  | mapRead id' => exact allowed
  | dbGetPeer id' fails => exact allowed
  | insertLoaded row id' => exact ⟨allowed.1,known _ allowed.2⟩
  | getOrInsert id' =>
    obtain ⟨mine,none | ⟨e,failed⟩⟩ := allowed
    · exact ⟨mine,known _ none⟩
    · exact absurd (known _ failed) (by simp [Knows])
  | peerUpdate ref addr' uuid' pk ip =>
    obtain ⟨rfl,_,given⟩ := allowed
    simp only [Unrivalled,overwrites,nextIs found,Bool.and_eq_false_iff,bne_eq_false_iff_eq,Bool.not_eq_false',
      List.isEmpty_iff] at guard
    exact ⟨uuid,held given,guard⟩
  | dbInsertPeer id' uuid' pk info guid' fails =>
    obtain ⟨rfl,rfl,_,rfl,rfl,ref,addr',pk',ip,info',updated⟩ := allowed
    exact ⟨rfl,uuid,rfl,guid,(known _ updated).1 uuid,unused⟩
  | guidWrite ref guid' =>
    obtain ⟨id',uuid',pk,info,newGuid',fails,inserted⟩ := allowed
    exact known _ inserted
  | dbUpdatePk guid' id' pk info fails =>
    obtain ⟨rfl,again,rfl,ref,addr',pk',ip,info',updated⟩ := allowed
    exact ⟨rfl,rfl,(known _ updated).2 again⟩
  | peerRefresh ref addr' => exact allowed.elim
  | _ => trivial

/- An operation that lets a request answer OK finds its uuid in memory. -/
theorem reasonNow (racing : Racing id first w) {i c o next} (found : w.tasks[i]? = some ⟨c,.op o next,true⟩)
    {rk : RegisterPk} {addr newGuid out} (call : c = .registerPk rk addr newGuid out) (uuid : rk.uuid ≠ [])
    (allowed : Allowed rk newGuid (w.didsOf i) o)
    (reason : unchanged c ⟨o,(exec expired o w.shared).1⟩ = true ∨ stores ⟨o,(exec expired o w.shared).1⟩ = true) :
    Holds id w.shared rk.uuid := by
  subst call
  have known := racing.known i ⟨_,o,next,found⟩
  have updated : ∀ {guid}, Updated rk.uuid guid (w.didsOf i) → Holds id w.shared rk.uuid :=
    fun ⟨_,_,_,_,_,updated⟩ => ⟨uuid,.inr ((known _ updated).1 uuid)⟩
  rcases reason with same | store
  · cases o with
    | peerRead ref =>
      obtain ⟨bound,mine,_⟩ := checkSame (of_decide_eq_true same)
      exact ⟨uuid,.inr ⟨_,peerMember bound,mine⟩⟩
    | _ => cases same
  · cases o with
    | dbInsertPeer id' uuid' pk info guid fails => exact updated allowed.2.2.2.2.2
    | dbUpdatePk guid id' pk info fails => exact updated allowed.2.2.2
    | _ => cases store

theorem racingFirst {now : Nat} {table : Peers} (proper : ∀ r ∈ table, r.id = id → r.guid ≠ [] ∧ r.uuid ≠ []) :
    Racing id table (Machine.initial (.init now table)) := by
  refine ⟨⟨?_,by simp [Machine.initial,Registry.init],fun _ => rfl,?_,by simp [Machine.initial,Registry.init],proper,
    fun r there _ => there⟩,?_,?_,by simp [Machine.initial]⟩
  · cases found : row (.init now table) id with
    | none => exact ⟨[],by simp [Machine.initial,Registry.init],fun r there mine => absurd mine (rowNone found r there)⟩
    | some r =>
      refine ⟨r.uuid,by simp [Machine.initial,Registry.init],fun a there mine => ?_⟩
      obtain ⟨member,mine'⟩ := rowIs found
      rw [sameId there member (mine.trans mine'.symm)]
  · intro ref wrong
    simp [Machine.initial,Registry.init] at wrong
  · rintro i ⟨c,o,next,found⟩
    simp [Machine.initial] at found
  · rintro ⟨p,member,_⟩
    simp [Machine.initial,Registry.init] at member

theorem racingPerformed (racing : Racing id first w) {ok : World → Act Call Env → Prop}
    (only : ∀ w a, ok w a → OnlyRequests id first w a) (reach : (machine expired).Reach ok s w) {i c o next}
    (found : w.tasks[i]? = some ⟨c,.op o next,true⟩) (guard : Unrivalled id w (.advance i)) :
    Racing id first ((machine expired).performed w i c o next) := by
  obtain ⟨rk,addr,newGuid,call,requests,uuid,allowed⟩ := allowedNow only reach found
  have fits := fitsNow racing found call requests uuid allowed guard
  obtain ⟨steady,new⟩ := steadyStep expired racing.state fits
  have bound := (List.getElem?_eq_some_iff.mp found).1
  refine ⟨steady.consistent,?_,?_,?_⟩
  · exact Machine.knownPerformed racing.known found (knowsStill steady.grows) new
  · rintro ⟨p,member,some⟩
    have own : updates ⟨o,(exec expired o w.shared).1⟩ = true →
        ∃ j t, ((machine expired).performed w i c o next).tasks[j]? = .some t ∧ t.alive = true ∧
          (((machine expired).performed w i c o next).didsOf j).any updates = true := by
      intro update
      refine ⟨i,_,List.getElem?_set_self bound,rfl,?_⟩
      rw [Machine.didsPerformed,if_pos rfl,List.any_append,List.any_cons]
      simp only [machine,update,Bool.true_or,Bool.or_true]
    by_cases update : updates ⟨o,(exec expired o w.shared).1⟩ = true
    · exact .inr (own update)
    · have reads : ∀ ref addr uuid pk ip, o ≠ .peerUpdate ref addr uuid pk ip := by
        rintro ref addr uuid pk ip rfl
        exact update rfl
      have rowed : Rowed id w.shared → Rowed id (exec expired o w.shared).2 := by
        rintro ⟨r,there,mine⟩
        obtain ⟨r',there',mine',_⟩ := steady.grows.rows r there mine
        exact ⟨r',there',mine'⟩
      rcases boundBefore fits reads member some with row | before
      · exact .inl (rowed row)
      · rcases racing.pending before with row | ⟨j,t,there,alive,updated⟩
        · exact .inl (rowed row)
        · refine .inr ⟨j,if i = j then ⟨c,next ((machine expired).exec o w.shared).1,true⟩ else t,?_,?_,?_⟩
          · by_cases same : i = j
            · subst same
              rw [if_pos rfl]
              exact List.getElem?_set_self bound
            · rw [if_neg same]
              exact (List.getElem?_set_ne same).trans there
          · split
            · rfl
            · exact alive
          · rw [Machine.didsPerformed,List.any_append,updated,Bool.true_or]
  · intro e member rk' addr' newGuid' out' call'
    rcases Machine.memPerformed.mp member with old | rfl
    · obtain ⟨holds,rowed⟩ := racing.reasons e old rk' addr' newGuid' out' call'
      refine ⟨fun reason => holdsStill steady.grows (holds reason),fun store => ?_⟩
      obtain ⟨r,there,mine⟩ := rowed store
      obtain ⟨r',there',mine',_⟩ := steady.grows.rows r there mine
      exact ⟨r',there',mine'⟩
    · have same : rk' = rk := by
        have both : Call.registerPk rk' addr' newGuid' out' = .registerPk rk addr newGuid .none := call'.symm.trans call
        cases both
        rfl
      subst same
      exact ⟨fun reason => holdsStill steady.grows (reasonNow racing found call uuid allowed reason),
        fun store => storesRow racing.state fits store⟩

/- A restart empties memory; what the requests relied on is in the table by then. -/
theorem racingRestarted (racing : Racing id first w)
    (guard : Unrivalled id w (.env .restart)) : Racing id first ((machine expired).disturbed w .restart) := by
  have heap : ((machine expired).disturbed w .restart).shared.heap = [] := rfl
  obtain ⟨uuid,_,rows⟩ := racing.state.one
  refine ⟨⟨⟨uuid,?_,rows⟩,?_,fun _ => heap,?_,?_,racing.state.proper,racing.state.others⟩,?_,?_,?_⟩
  · rw [heap]; simp
  · rw [heap]; simp
  · intro ref found
    simp [Machine.disturbed,machine,Registry.restart,Registry.init] at found
  · rw [heap]; simp
  · exact Machine.knownDisturbed racing.known (.inl rfl)
  · rintro ⟨p,member,_⟩
    rw [heap] at member
    cases member
  · intro e member rk addr newGuid out call
    obtain ⟨holds,rowed⟩ := racing.reasons e member rk addr newGuid out call
    refine ⟨fun reason => ?_,rowed⟩
    have row : Rowed id w.shared := by
      rcases reason with same | store
      · rcases guard with row | none
        · exact row
        · rw [none e member] at same
          cases same
      · exact rowed store
    obtain ⟨r,there,mine⟩ := row
    exact ⟨(holds reason).1,.inl ⟨r,there,mine,holdsRow racing.state (holds reason) there mine⟩⟩

theorem racingTicked (racing : Racing id first w) (ns : Nat) :
    Racing id first ((machine expired).disturbed w (.tick ns)) := by
  have steady : Steady id first w.shared { w.shared with now := w.shared.now + ns } := steadySame racing.state rfl rfl rfl
  exact ⟨steady.consistent,Machine.knownDisturbed racing.known (.inr (knowsStill steady.grows)),racing.pending,
    racing.reasons⟩

theorem racing {now : Nat} {table : Peers} (proper : ∀ r ∈ table, r.id = id → r.guid ≠ [] ∧ r.uuid ≠ [])
    (reach : (machine expired).Reach (Step id table) (.init now table) w) : Racing id table w := by
  have only : ∀ w a, Step id table w a → OnlyRequests id table w a := fun _ _ meets => meets.1
  refine Machine.invariant (I := Racing id table) (racingFirst proper) ?_ ?_ ?_ reach
  · intro w c before _ racing
    refine ⟨racing.state,Machine.knownStarted before racing.known c,fun bound => ?_,racing.reasons⟩
    rcases racing.pending bound with row | ⟨i,t,found,alive,updated⟩
    · exact .inl row
    · exact .inr ⟨i,t,(List.getElem?_append_left (List.getElem?_eq_some_iff.mp found).1).trans found,alive,updated⟩
  · intro w i c o next before meets found _ racing
    exact racingPerformed racing only before found meets.2
  · intro w e before meets racing
    cases e with
    | tick ns => exact racingTicked racing ns
    | restart => exact racingRestarted racing meets.2

/- One uuid is answered OK at most; when every call has returned, the table has it, and memory
too unless nothing was looked up since a restart. -/
structure OneUuid (id : String) (w : World) : Prop where
  answers : ∀ i j rk rk' addr addr' newGuid newGuid' out out', w.Answered i (.registerPk rk addr newGuid out) (.pk .ok) →
    w.Answered j (.registerPk rk' addr' newGuid' out') (.pk .ok) → rk.uuid = rk'.uuid
  settled : w.Idle → ∀ i rk addr newGuid out, w.Answered i (.registerPk rk addr newGuid out) (.pk .ok) →
    (∃ r, row w.shared id = some r ∧ r.uuid = rk.uuid) ∧
    (∀ p, entry w.shared id = some p → p.uuid = rk.uuid) ∧ (entry w.shared id = none → w.shared.heap = [])

section Answers
variable {now : Nat} {table : Peers}

theorem answeredEnded (reach : (machine expired).Reach (Step id table) (.init now table) w) {i c reply}
    (answered : w.Answered i c reply) : Ended c (w.didsOf i) reply :=
  Machine.answeredEnds (Q := fun _ => Ended) (fun _ _ => requestEnded) reach answered

/- An operation of a request is found in the log, under the call of the request. -/
theorem didOf (reach : (machine expired).Reach (Step id table) (.init now table) w) {i t}
    (found : w.tasks[i]? = some t) {d} (member : d ∈ w.didsOf i) : ∃ e ∈ w.log, e.call = t.call ∧ e.did = d := by
  obtain ⟨e,inside,task,did⟩ := didsOfMember.mp member
  obtain ⟨t',there,call⟩ := Machine.eventTask reach e inside
  rw [task,found] at there
  cases Option.some.inj there
  exact ⟨e,inside,call.symm,did⟩

theorem answeredHolds (racing : Racing id table w)
    (reach : (machine expired).Reach (Step id table) (.init now table) w) {i rk addr newGuid out}
    (answered : w.Answered i (.registerPk rk addr newGuid out) (.pk .ok)) : Holds id w.shared rk.uuid := by
  have reason := (answeredEnded reach answered).reason rfl
  obtain ⟨t,found,called,_⟩ := answered
  have reasoned : ∃ d ∈ w.didsOf i, unchanged t.call d = true ∨ stores d = true := by
    rw [called]
    rcases reason with same | store
    · obtain ⟨d,member,same⟩ := List.any_eq_true.mp same
      exact ⟨d,member,.inl same⟩
    · obtain ⟨d,member,store⟩ := List.any_eq_true.mp store
      exact ⟨d,member,.inr store⟩
  obtain ⟨d,member,reason⟩ := reasoned
  obtain ⟨e,inside,call,rfl⟩ := didOf reach found member
  exact (racing.reasons e inside rk addr newGuid out (call.trans called)).1 (by rw [call]; exact reason)

/- When every call has returned, what is in memory has reached the table. -/
theorem idleRowed (racing : Racing id table w)
    (reach : (machine expired).Reach (Step id table) (.init now table) w) (idle : w.Idle) {uuid}
    (holds : Holds id w.shared uuid) : Rowed id w.shared := by
  obtain ⟨bound,⟨r,there,mine,_⟩ | ⟨p,there,same⟩⟩ := holds
  · exact ⟨r,there,mine⟩
  · rcases racing.pending ⟨p,there,by rw [same]; exact bound⟩ with row | ⟨i,t,found,alive,updated⟩
    · exact row
    · obtain ⟨reply,returned⟩ := idle t (List.mem_of_getElem? found) alive
      have stored := (answeredEnded reach ⟨t,found,rfl,returned⟩).stored updated
      obtain ⟨d,member,store⟩ := List.any_eq_true.mp stored
      obtain ⟨e,inside,call,rfl⟩ := didOf reach found member
      have requests := requested (fun _ _ meets => meets.1) reach t.call (List.mem_of_getElem? (callAt found))
      cases called : t.call with
      | registerPk rk addr newGuid out =>
        exact (racing.reasons e inside rk addr newGuid out (call.trans called)).2 store
      | _ => rw [called] at requests; exact requests.elim

end Answers

theorem oneUuidUnlessRivalled {now : Nat} {table : Peers} (proper : ∀ r ∈ table, r.id = id → r.guid ≠ [] ∧ r.uuid ≠ [])
    (reach : (machine expired).Reach (Step id table) (.init now table) w) : OneUuid id w := by
  have racing := racing proper reach
  constructor
  · intro i j rk rk' _ _ _ _ _ _ one other
    exact holdsOne racing.state (answeredHolds racing reach one) (answeredHolds racing reach other)
  · intro idle i rk addr newGuid out answered
    have holds := answeredHolds racing reach answered
    obtain ⟨r,member,mine⟩ := idleRowed racing reach idle holds
    have uuid := holdsRow racing.state holds member mine
    refine ⟨⟨r,by rw [← mine]; exact memRow.mpr member,uuid⟩,fun p here => ?_,fun absent => ?_⟩
    · obtain ⟨ref,found,rfl⟩ := Option.map_eq_some_iff.mp here
      have inside := racing.state.inside ref found
      have peer : w.shared.peer ref ∈ w.shared.heap := by
        simp [Registry.peer,List.getD_eq_getElem?_getD,List.getElem?_eq_getElem inside]
      have bound : (w.shared.peer ref).uuid ≠ [] := fun none => (racing.state.alone _ peer none).2 ⟨r,member,mine⟩
      obtain ⟨one,peers,rows⟩ := racing.state.one
      rw [peers _ peer bound,← rows r member mine,uuid]
    · exact racing.state.empty (Option.map_eq_none_iff.mp absent)

end Runs

instance (id : String) (table : Peers) : (c : Call) → Decidable (Requests id table c)
  | .registerPk rk _ newGuid out => inferInstanceAs (Decidable (rk.id = id ∧ out = .none ∧ newGuid ≠ [] ∧
      ∀ r ∈ table.rows, r.id ≠ id → r.guid ≠ newGuid))
  | .registerPeer _ _ | .get _ _ => .isFalse fun wrong => wrong

instance (id : String) (table : Peers) (w : World) : (a : Act Call Env) → Decidable (OnlyRequests id table w a)
  | .start c => inferInstanceAs (Decidable (Requests id table c))
  | .advance _ | .env _ => .isTrue trivial

instance (id : String) (s : Registry) : Decidable (Rowed id s) :=
  inferInstanceAs (Decidable (∃ r ∈ s.table.rows, r.id = id))

instance (id : String) (w : World) : (a : Act Call Env) → Decidable (Unrivalled id w a)
  | .advance i => inferInstanceAs (Decidable (overwrites w i = false))
  | .env .restart => inferInstanceAs (Decidable (Rowed id w.shared ∨ ∀ e ∈ w.log, unchanged e.call e.did = false))
  | .env (.tick _) | .start _ => .isTrue trivial

def attempt (uuid ip : UInt8) : Call :=
  .registerPk ⟨"100000003",[uuid],[2]⟩ ⟨.v4 198 51 100 ip,21116⟩ [uuid,ip] .none

def advances (i n : Nat) : List (Act Call Env) := List.replicate n (.advance i)

def attemptOk (uuid ip : UInt8) : Option (Call × Option Reply) := some (attempt uuid ip,some (.pk .ok))

/- Both requests read the new peer before either of them writes it. -/
def rivalActs : List (Act Call Env) :=
  [.start (attempt 1 7),.start (attempt 2 8)] ++ advances 0 5 ++ advances 1 3 ++ advances 0 5 ++ advances 1 4

/- The second request finds the uuid of the first, which the restart takes away again. -/
def forgottenActs : List (Act Call Env) :=
  [.start (attempt 1 7),.start (attempt 1 7)] ++ advances 0 8 ++ advances 1 5 ++ [.env .restart,.start (attempt 2 8)] ++
    advances 2 10

/- Overlapping first registrations, or a restart in a run without any. -/
def settles (w : World) : Act Call Env → Bool
  | .advance i => !overwrites w i
  | _ => true

theorem twoUuidsAnswered :
    (∃ w, (machine hourAgo).Reach (OnlyRequests "100000003" .empty) (.init bootInstant .empty) w ∧
      ¬ OneUuid "100000003" w) ∧
    ∃ w, (machine hourAgo).Reach (fun w a => OnlyRequests "100000003" .empty w a ∧ ∀ i, a = .advance i → overwrites w i = false)
      (.init bootInstant .empty) w ∧ ¬ OneUuid "100000003" w := by
  have apart : ∀ {w : World} {i j}, w.answer i = attemptOk 1 7 → w.answer j = attemptOk 2 8 → ¬ OneUuid "100000003" w := by
    intro w i j one other agrees
    have same := agrees.answers i j _ _ _ _ _ _ _ _ (answered one) (answered other)
    cases same
  constructor
  · obtain ⟨w,reach,both⟩ := Machine.reachWith (OnlyRequests "100000003" .empty)
      (fun w a => decide (OnlyRequests "100000003" .empty w a)) (fun _ _ => of_decide_eq_true) rivalActs
      (m := machine hourAgo) (s := .init bootInstant .empty)
      (P := fun w => w.answer 0 = attemptOk 1 7 && w.answer 1 = attemptOk 2 8) (by decide +kernel)
    obtain ⟨one,other⟩ := Bool.and_eq_true_iff.mp both
    exact ⟨w,reach,apart (of_decide_eq_true one) (of_decide_eq_true other)⟩
  · have sound : ∀ (w : World) (a : Act Call Env), (decide (OnlyRequests "100000003" .empty w a) && settles w a) = true →
        OnlyRequests "100000003" .empty w a ∧ ∀ i, a = .advance i → overwrites w i = false := by
      intro w a holds
      obtain ⟨only,keeps⟩ := Bool.and_eq_true_iff.mp holds
      refine ⟨of_decide_eq_true only,?_⟩
      rintro i rfl
      simpa [settles] using keeps
    obtain ⟨w,reach,both⟩ := Machine.reachWith _ _ sound forgottenActs (m := machine hourAgo)
      (s := .init bootInstant .empty) (P := fun w => w.answer 1 = attemptOk 1 7 && w.answer 2 = attemptOk 2 8)
      (by decide +kernel)
    obtain ⟨one,other⟩ := Bool.and_eq_true_iff.mp both
    exact ⟨w,reach,apart (of_decide_eq_true one) (of_decide_eq_true other)⟩

/- A request sent twice and a restart once the row is there. -/
def repeatedActs : List (Act Call Env) :=
  [.start (attempt 1 7),.start (attempt 1 7)] ++ advances 0 8 ++ advances 1 5 ++ advances 0 2 ++ [.env .restart]

theorem repeatedAttemptKeepsUuid : ∃ w,
    (machine hourAgo).Reach (Step "100000003" .empty) (.init bootInstant .empty) w ∧
    w.answer 0 = attemptOk 1 7 ∧ w.answer 1 = attemptOk 1 7 ∧ OneUuid "100000003" w := by
  obtain ⟨w,reach,both⟩ := Machine.reachWith (Step "100000003" .empty)
    (fun w a => decide (OnlyRequests "100000003" .empty w a ∧ Unrivalled "100000003" w a))
    (fun _ _ => of_decide_eq_true) repeatedActs (m := machine hourAgo) (s := .init bootInstant .empty)
    (P := fun w => w.answer 0 = attemptOk 1 7 && w.answer 1 = attemptOk 1 7) (by decide +kernel)
  obtain ⟨one,other⟩ := Bool.and_eq_true_iff.mp both
  have proper : ∀ r ∈ (Table.empty : Peers), r.id = "100000003" → r.guid ≠ [] ∧ r.uuid ≠ [] :=
    fun r member => absurd member notMemEmpty
  exact ⟨w,reach,of_decide_eq_true one,of_decide_eq_true other,oneUuidUnlessRivalled proper reach⟩

end OpenuuServer.PeerRaces
