import OpenuuServer.PeerRaces

/-! RegisterPeer that asks for the key, RegisterPk that delivers it, RegisterPeer again. The
first compares the address with the one in memory, the second with the text that is stored
beside the key, and only a loopback address can be in one of them and not in the other. -/
namespace OpenuuServer.PeerHandshake
open AtomicProgram UniqueTable IpText PeerRegistry PeerSequence PeerRaces

section Steps
variable {expired : Nat → Nat} {s : Registry}

/- Whatever is in progress, every operation keeps the pointers of the map apart. -/
theorem placedExec (placed : Placed s) (o : Op) : Placed (exec expired o s).2 := by
  have amended : ∀ ref f, Placed (s.amend ref f) := fun ref f =>
    ⟨fun id ref' found => by simpa [Registry.amend] using placed.inside id ref' found,placed.apart⟩
  cases o with
  | insertLoaded row id => exact (allocated placed id _).1.placed
  | getOrInsert id =>
    simp only [exec]
    split
    · exact placed
    · exact (allocated placed id _).1.placed
  | regPkWrite ref regPk => exact amended _ _
  | guidWrite ref guid => exact amended _ _
  | peerUpdate ref addr uuid pk ip => exact amended _ _
  | peerRefresh ref addr =>
    simp only [exec]
    split
    · exact placed
    · exact amended _ _
  | dbInsertPeer id uuid pk info guid fails =>
    simp only [exec]
    split
    · exact placed
    · split <;> exact ⟨placed.inside,placed.apart⟩
  | dbUpdatePk guid id pk info fails =>
    simp only [exec]
    split
    · exact placed
    · split <;> exact ⟨placed.inside,placed.apart⟩
  | _ => exact ⟨placed.inside,placed.apart⟩

/- Where the address in memory and the stored text agree. -/
def Settled (p : Peer) : Prop :=
  p.socketAddr.port = 0 ∨ p.socketAddr.ip.isLoopback = true ∨ p.socketAddr.ip.text = p.info.ip

/- `update_pk` is called with the text of the address. -/
def Textual : Op → Prop
  | .peerUpdate _ addr _ _ ip => ip = addr.ip.text
  | _ => True

theorem refreshSettled {p : Peer} (settled : Settled p) {addr : SocketAddr} (known : requestPk p addr.ip = false) (now : Nat) :
    Settled { p with socketAddr := addr,lastRegTime := now } := by
  simp only [requestPk,ipChanged,Bool.or_eq_false_iff,Bool.and_eq_false_iff,Bool.not_eq_false'] at known
  rcases known.2 with same | loopback
  · split at same
    · rename_i port
      have here : addr.ip = p.socketAddr.ip := by simpa using same
      rcases settled with none | loopback | text
      · exact absurd none port
      · exact .inr (.inl (by rw [← here] at loopback; exact loopback))
      · exact .inr (.inr (by rw [← here] at text; exact text))
    · exact .inr (.inr (by simpa using same))
  · exact .inr (.inl loopback)

theorem settledExec (all : ∀ p ∈ s.heap, Settled p) {o : Op} (textual : Textual o) :
    ∀ p ∈ (exec expired o s).2.heap, Settled p := by
  have allocated : ∀ id q, q.socketAddr = unset → ∀ p ∈ (s.allocate id q).2.heap, Settled p := by
    intro id q new p member
    rcases List.mem_append.mp member with old | last
    · exact all p old
    · rw [List.mem_singleton.mp last]
      exact .inl (by rw [new]; rfl)
  have amended : ∀ (ref : LockPeer) f, (∀ q ∈ s.heap, s.peer ref = q → Settled (f q)) →
      ∀ p ∈ (s.amend ref f).heap, Settled p := by
    intro ref f sound p member
    rcases memModify member with old | ⟨q,there,rfl⟩
    · exact all p old
    · refine sound q (List.mem_of_getElem? there) ?_
      simp [Registry.peer,List.getD_eq_getElem?_getD,there]
  cases o with
  | insertLoaded row id => exact allocated id _ rfl
  | getOrInsert id =>
    simp only [exec]
    split
    · exact all
    · exact allocated id _ rfl
  | regPkWrite ref regPk => exact amended _ _ fun q member _ => all q member
  | guidWrite ref guid => exact amended _ _ fun q member _ => all q member
  | peerUpdate ref addr uuid pk ip => exact amended _ _ fun q _ _ => .inr (.inr textual.symm)
  | peerRefresh ref addr =>
    simp only [exec]
    split
    · exact all
    · rename_i known
      exact amended _ _ fun q member here => refreshSettled (all q member) (by rw [← here]; simpa using known) _
  | dbInsertPeer id uuid pk info guid fails =>
    simp only [exec]
    split
    · exact all
    · split <;> exact all
  | dbUpdatePk guid id pk info fails =>
    simp only [exec]
    split
    · exact all
    · split <;> exact all
  | _ => exact all

end Steps

section Programs

theorem textualGet (id : String) (fails : Bool) : (PeerMap.get id fails).Every Textual := by
  unfold PeerMap.get act
  simp only [performIs,bindOp,bindRet]
  refine ⟨trivial,fun p => ?_⟩
  dsimp only
  split
  · trivial
  · refine ⟨trivial,fun row => ?_⟩
    dsimp only
    split
    · exact ⟨trivial,fun _ => trivial⟩
    · trivial

theorem textualRegisterAt (rk : RegisterPk) (addr : SocketAddr) (newGuid : Bytes) (out : Outage) (ref : LockPeer) :
    (registerAt rk addr newGuid out ref).Every Textual := by
  have update : (PeerMap.updatePk rk.id ref addr rk.uuid rk.pk addr.ip.text newGuid out).Every Textual := by
    unfold PeerMap.updatePk act
    simp only [performIs,bindOp,bindRet]
    refine ⟨rfl,fun stored => ?_⟩
    dsimp only
    split
    · refine ⟨trivial,fun inserted => ?_⟩
      cases inserted with
      | error e => trivial
      | ok guid => exact ⟨trivial,fun _ => trivial⟩
    · refine ⟨trivial,fun updated => ?_⟩
      cases updated <;> trivial
  unfold registerAt act
  simp only [performIs,bindOp,bindRet]
  refine ⟨trivial,fun stored => ?_⟩
  dsimp only
  cases checkPeer stored rk addr.ip.text with
  | none => trivial
  | some verdict =>
    obtain ⟨changed,ipChanged⟩ := verdict
    refine ⟨trivial,fun read => ?_⟩
    dsimp only
    cases countPk read.1 read.2 with
    | none => trivial
    | some regPk =>
      refine ⟨trivial,fun _ => ?_⟩
      cases ipChanged <;> cases changed
      · trivial
      · exact everyBind update fun _ => trivial
      · exact ⟨trivial,fun _ => trivial⟩
      · exact ⟨trivial,fun _ => everyBind update fun _ => trivial⟩

theorem textualProgram (c : Call) : (program c).Every Textual := by
  unfold program
  cases c with
  | registerPk rk addr newGuid out =>
    dsimp only
    rw [everyIte]
    refine ⟨fun _ => trivial,fun _ => everyMap.mpr ?_⟩
    unfold registerPkResult act
    simp only [performIs,bindOp,bindRet]
    rw [everyIte]
    refine ⟨fun _ => trivial,fun _ => ⟨trivial,fun allowed => ?_⟩⟩
    dsimp only
    rw [everyIte]
    refine ⟨fun _ => trivial,fun _ => everyBind ?_ fun ref => textualRegisterAt _ _ _ _ ref⟩
    unfold PeerMap.getOr
    refine everyBind (textualGet _ _) fun found => ?_
    cases found with
    | none => exact ⟨trivial,fun _ => trivial⟩
    | some ref => trivial
  | registerPeer id addr =>
    dsimp only
    rw [everyIte]
    refine ⟨fun _ => trivial,fun _ => everyMap.mpr ⟨trivial,fun old => ?_⟩⟩
    cases old with
    | none => trivial
    | some ref => exact ⟨trivial,fun _ => trivial⟩
  | get id fails => exact everyMap.mpr (textualGet id fails)

end Programs

section Runs
variable {expired : Nat → Nat} {ok : World → Act Call Env → Prop} {now : Nat} {table : Peers} {w : World}

theorem runPlaced (reach : (machine expired).Reach ok (.init now table) w) : Placed w.shared := by
  refine Machine.invariant (I := fun w => Placed w.shared) (placedEmpty now table) ?_ ?_ ?_ reach
  · exact fun w c _ _ ih => ih
  · exact fun w i c o next _ _ _ _ ih => placedExec ih o
  · intro w e _ _ ih
    cases e with
    | tick ns => exact ⟨ih.inside,ih.apart⟩
    | restart => exact placedEmpty _ _

theorem runSettled (reach : (machine expired).Reach ok (.init now table) w) : ∀ p ∈ w.shared.heap, Settled p := by
  refine Machine.invariant (I := fun w => ∀ p ∈ w.shared.heap, Settled p) (by simp [Machine.initial,Registry.init]) ?_ ?_ ?_ reach
  · exact fun w c _ _ ih => ih
  · intro w i c o next before _ found _ ih
    exact settledExec ih (everyOnPath (Machine.taskPath before found) (textualProgram c)).2.1
  · intro w e _ _ ih
    cases e with
    | tick ns => exact ih
    | restart => simp [Machine.disturbed,machine,Registry.restart,Registry.init]

theorem entrySettled {s : Registry} (placed : Placed s) (all : ∀ p ∈ s.heap, Settled p) {id p} (here : entry s id = some p) :
    Settled p := by
  obtain ⟨ref,lookup,rfl⟩ := Option.map_eq_some_iff.mp here
  have inside := placed.inside id ref lookup
  refine all _ ?_
  simp [Registry.peer,List.getD_eq_getElem?_getD,List.getElem?_eq_getElem inside]

end Runs

def later (s : Registry) (ns : Nat) : Registry := { s with now := s.now + ns }

/- The request repeats what is stored for the id, from an address that is no loopback one, while
the address in memory is. -/
def Drifted (s : Registry) (rk : RegisterPk) (addr : SocketAddr) : Prop :=
  ∃ p, entry s rk.id = some p ∧ p.socketAddr.port ≠ 0 ∧ p.socketAddr.ip.isLoopback = true ∧
    addr.ip.isLoopback = false ∧ p.uuid = rk.uuid ∧ p.pk = rk.pk ∧ p.info.ip = addr.ip.text

/- A RegisterPeer from the address is not asked for the key, and refreshes the peer. -/
def Refreshes (expired : Nat → Nat) (s : Registry) (id : String) (addr : SocketAddr) : Prop :=
  (answering expired (.registerPeer id addr) s).1 = .peer false ∧
    ∃ p, entry (answering expired (.registerPeer id addr) s).2 id = some p ∧ p.socketAddr = addr ∧ p.lastRegTime = s.now

section Handshake
variable {expired : Nat → Nat} {s : Registry} {id : String} {addr : SocketAddr}

theorem askedStill (placed : Placed s) (asked : (answering expired (.registerPeer id addr) s).1 = .peer true) :
    id ≠ "" ∧ Moved s (answering expired (.registerPeer id addr) s).2 id (entry s id) s.table := by
  unfold answering program at asked ⊢
  dsimp only at asked ⊢
  by_cases empty : id.isEmpty = true
  · rw [if_pos empty] at asked
    cases asked
  · rw [if_neg empty,runMap] at asked ⊢
    refine ⟨fun none => empty (by rw [none]; rfl),?_⟩
    by_cases ask : ∀ p, entry s id = some p → requestPk p addr.ip = true
    · rw [registerPeerAsked ask]
      exact notMoved placed id
    · simp only [not_forall] at ask
      obtain ⟨p,here,known⟩ := ask
      rw [(registerPeerKnown expired placed here (by simpa using known)).1] at asked
      cases asked

theorem refreshesIff (placed : Placed s) {p : Peer} (proper : id ≠ "") (here : entry s id = some p) :
    Refreshes expired s id addr ↔ requestPk p addr.ip = false := by
  have some : ¬ id.isEmpty = true := by simpa using proper
  unfold Refreshes answering program
  simp only [if_neg some,runMap]
  constructor
  · intro done
    by_contra asks
    have ask : ∀ q, entry s id = .some q → requestPk q addr.ip = true := by
      intro q there
      cases Option.some.inj (here.symm.trans there)
      simpa using asks
    rw [registerPeerAsked ask] at done
    cases done.1
  · intro known
    obtain ⟨reply,moved⟩ := registerPeerKnown expired placed here known
    exact ⟨by rw [reply],_,moved.here,rfl,rfl⟩

theorem laterMoved {s' : Registry} {p t} (moved : Moved s s' id p t) (ns : Nat) :
    Placed (later s' ns) ∧ entry (later s' ns) id = p :=
  ⟨⟨moved.placed.inside,moved.placed.apart⟩,moved.here⟩

theorem storedKnown {p : Peer} (pk : p.pk ≠ []) (here : p.socketAddr = addr) (text : p.info.ip = addr.ip.text) :
    requestPk p addr.ip = false := by
  simp [requestPk,ipChanged,pk,here,text]

theorem foundHere {p : Peer} (here : entry s id = some p) (fails : Bool) : found expired s id fails = p := by
  rw [found,got,here]
  rfl

theorem foundUnset (absent : entry s id = none) (fails : Bool) : (found expired s id fails).socketAddr = unset := by
  rw [found,got,absent]
  cases readable s id fails <;> rfl

/- A peer as the request describes it still asks where its address differs. -/
theorem unchangedAsks {q : Peer} (settled : Settled q) {rk : RegisterPk} (pk : rk.pk ≠ []) (same : q.pk = rk.pk)
    (text : q.info.ip = addr.ip.text) : requestPk q addr.ip = true ↔
      q.socketAddr.port ≠ 0 ∧ q.socketAddr.ip.isLoopback = true ∧ addr.ip.isLoopback = false := by
  have keyed : q.pk.isEmpty = false := by
    rw [same]
    simpa using pk
  simp only [requestPk,keyed,Bool.false_or,ipChanged,Bool.and_eq_true,Bool.not_eq_true']
  constructor
  · rintro ⟨differs,remote⟩
    split at differs
    · rename_i port
      refine ⟨port,?_,remote⟩
      rcases settled with none | loopback | stored
      · exact absurd none port
      · exact loopback
      · have here : addr.ip = q.socketAddr.ip := textInjective (text.symm.trans stored.symm)
        simp [here] at differs
    · simp [text] at differs
  · rintro ⟨port,loopback,remote⟩
    refine ⟨?_,remote⟩
    rw [if_pos port]
    have apart : addr.ip ≠ q.socketAddr.ip := by
      intro here
      rw [here,loopback] at remote
      cases remote
    simpa using apart

end Handshake

/- From every state in which RegisterPeer is asked for the key and the RegisterPk after it is
answered OK, the handshake ends exactly when the peer has not drifted. -/
theorem handshakeEndsUnlessDrifted {expired : Nat → Nat} {now : Nat} {table : Peers} {w : World}
    (reach : (machine expired).Reach (fun _ _ => True) (.init now table) w) (rk : RegisterPk) (addr : SocketAddr)
    (newGuid : Bytes) (out : Outage) (ns ns' : Nat)
    (asked : (answering expired (.registerPeer rk.id addr) w.shared).1 = .peer true)
    (ok : (answering expired (.registerPk rk addr newGuid out)
      (later (answering expired (.registerPeer rk.id addr) w.shared).2 ns)).1 = .pk .ok) :
    Refreshes expired (later (answering expired (.registerPk rk addr newGuid out)
      (later (answering expired (.registerPeer rk.id addr) w.shared).2 ns)).2 ns') rk.id addr ↔
      ¬ Drifted w.shared rk addr := by
  have placed := runPlaced reach
  obtain ⟨proper,still⟩ := askedStill placed asked
  obtain ⟨placed',same⟩ := laterMoved still ns
  generalize later (answering expired (.registerPeer rk.id addr) w.shared).2 ns = s at ok placed' same ⊢
  obtain ⟨id,p,t,turn,moved⟩ := turn expired placed' (.registerPk rk addr newGuid out)
  rw [ok] at turn
  cases turn with
  | pk uuid pk registered =>
    cases registered with
    | early held bad => exact absurd rfl bad
    | checked passes rest =>
      obtain ⟨placed'',here⟩ := laterMoved moved ns'
      have drifted : Drifted w.shared rk addr ↔ ∃ q, entry s rk.id = some q ∧ q.socketAddr.port ≠ 0 ∧
          q.socketAddr.ip.isLoopback = true ∧ addr.ip.isLoopback = false ∧ q.uuid = rk.uuid ∧ q.pk = rk.pk ∧
          q.info.ip = addr.ip.text := by rw [Drifted,same]
      rw [refreshesIff placed'' proper here,drifted]
      cases rest with
      | refused bad _ => exact absurd rfl bad
      | changed check stored =>
        refine iff_of_true (storedKnown pk rfl rfl) ?_
        rintro ⟨q,there,_,_,_,uuid',pk',text⟩
        rw [foundHere there] at check
        simp [checkPeer,uuid',pk',text,uuid] at check
      | unchanged check =>
        obtain ⟨_,uuid',pk',text⟩ := checkSame check
        cases there : entry s rk.id with
        | none =>
          refine iff_of_true ?_ (by simp)
          simp [requestPk,ipChanged,foundUnset there,unset,pk',pk,text]
        | some q =>
          rw [foundHere there] at uuid' pk' text ⊢
          have settled : Settled q := entrySettled placed (runSettled reach) (same.symm.trans there)
          have asks : requestPk q addr.ip = true ↔ _ := unchangedAsks settled pk pk' text
          constructor
          · rintro known ⟨q',there',port,loopback,remote,_⟩
            cases Option.some.inj there'
            have ask := asks.mpr ⟨port,loopback,remote⟩
            rw [show requestPk q addr.ip = false from known] at ask
            cases ask
          · intro free
            by_contra ask
            obtain ⟨port,loopback,remote⟩ := asks.mp (Bool.not_eq_false _ ▸ ask)
            exact free ⟨q,rfl,port,loopback,remote,uuid',pk',text⟩

def homeAddr : SocketAddr := ⟨.v4 198 51 100 7,21116⟩

def homeKey : RegisterPk := ⟨"100000003",[1],[2]⟩

/- The handshake up to the answer of RegisterPk, and whether it comes to that. -/
def afterKey (s : Registry) : Registry :=
  later (answering hourAgo (.registerPk homeKey homeAddr [9] .none)
    (later (answering hourAgo (.registerPeer homeKey.id homeAddr) s).2 0)).2 0

def delivers (s : Registry) : Bool :=
  (answering hourAgo (.registerPeer homeKey.id homeAddr) s).1 = .peer true &&
    (answering hourAgo (.registerPk homeKey homeAddr [9] .none)
      (later (answering hourAgo (.registerPeer homeKey.id homeAddr) s).2 0)).1 = .pk .ok

def registersHome : List (Act Call Env) :=
  .start (.registerPk homeKey homeAddr [1] .none) :: advances 0 10

/- The peer comes by over the loopback interface and then from its own address again. -/
def driftActs : List (Act Call Env) :=
  registersHome ++ .start (.registerPeer homeKey.id ⟨.v4 127 0 0 1,4000⟩) :: advances 1 2

theorem driftedPeerAskedAgain : ∃ w, (machine hourAgo).Reach (fun _ _ => True) (.init bootInstant .empty) w ∧
    (answering hourAgo (.registerPeer homeKey.id homeAddr) w.shared).1 = .peer true ∧
    (answering hourAgo (.registerPk homeKey homeAddr [9] .none)
      (later (answering hourAgo (.registerPeer homeKey.id homeAddr) w.shared).2 0)).1 = .pk .ok ∧
    ¬ Refreshes hourAgo (afterKey w.shared) homeKey.id homeAddr := by
  obtain ⟨w,reach,done⟩ := Machine.reachWith (m := machine hourAgo) (s := Registry.init bootInstant .empty)
    (fun _ _ => True) (fun _ _ => true) (fun _ _ _ => trivial) driftActs
    (P := fun w => delivers w.shared &&
      decide ((answering hourAgo (.registerPeer homeKey.id homeAddr) (afterKey w.shared)).1 = .peer true))
    (by decide +kernel)
  simp only [delivers,Bool.and_eq_true,decide_eq_true_eq] at done
  refine ⟨w,reach,done.1.1,done.1.2,fun refreshes => ?_⟩
  rw [refreshes.1] at done
  cases done.2

theorem restartedPeerRefreshes : ∃ w, (machine hourAgo).Reach (fun _ _ => True) (.init bootInstant .empty) w ∧
    Refreshes hourAgo (afterKey w.shared) homeKey.id homeAddr := by
  obtain ⟨w,reach,done⟩ := Machine.reachWith (m := machine hourAgo) (s := Registry.init bootInstant .empty)
    (fun _ _ => True) (fun _ _ => true) (fun _ _ _ => trivial) (registersHome ++ [.env .restart])
    (P := fun w => delivers w.shared && (entry w.shared homeKey.id).isNone) (by decide +kernel)
  simp only [delivers,Bool.and_eq_true,decide_eq_true_eq,Option.isNone_iff_eq_none] at done
  refine ⟨w,reach,(handshakeEndsUnlessDrifted reach homeKey homeAddr [9] .none 0 0 done.1.1 done.1.2).mpr ?_⟩
  rintro ⟨p,here,_⟩
  rw [done.2] at here
  cases here

end OpenuuServer.PeerHandshake
