import OpenuuServer.PeerHandshake
import OpenuuServer.RendezvousRuns

/-! What an OK to RegisterPk is worth: whether the requests of the next 30 seconds find the
peer at the address it registered from. Address and time are written with the key, and the key
is written only if anything about it changed. -/
namespace OpenuuServer.PeerOnline
open AtomicProgram UniqueTable IpText RendezvousMessages RendezvousServer RendezvousPrograms RendezvousService
open RendezvousRuns
open PeerRegistry (Bytes SocketAddr LockPeer Registry Peer Outage RegisterPk Peers checkPeer registerPkResult)
open PeerSequence (entry row Placed Moved Checked Registered found entryOf getRunSome registerPkRun placedEmpty)

/- A RegisterPk comes as a datagram or on a connection. -/
inductive Arrival where
  | udp (addr : SocketAddr)
  | tcp (conn : Conn)

def Arrival.addr : Arrival → SocketAddr
  | .udp addr => addr
  | .tcp conn => conn.addr

def Arrival.handling (lib : Library) (config : Config) (key : String) (bytes : Bytes) (draws : Draws) :
    Arrival → Prog Op Resp Unit
  | .udp addr => handleUdp lib config addr bytes draws
  | .tcp conn => do
    let _ ← handleTcp lib config key conn bytes draws

/- `REG_TIMEOUT` in nanoseconds. -/
def regTimeout : Nat := 30000000000

/- A later state in which the peer is as it was and the time is not up. -/
structure Within (s v : Server) (id : String) (since : Nat) : Prop where
  entry : entry v.registry id = entry s.registry id
  time : v.registry.now < since + regTimeout

/- Every request of the next 30 seconds finds the peer online at the address. -/
structure Online (lib : Library) (expired : Nat → Nat) (s : Server) (id : String) (addr : SocketAddr) (since : Nat) : Prop where
  stored : ∃ p, entry s.registry id = some p ∧ p.socketAddr = addr ∧ p.lastRegTime = since
  punch : ∀ v, Within s v id since → ∀ config key conn ph draws, ph.id = id → (key = "" ∨ ph.licenceKey = key) →
    ∃ msg, ((handleTcpPunchHoleRequest lib config key conn ph draws).run (exec lib expired) v).2.queue =
      v.queue ++ [.msg msg addr]
  relay : ∀ v, Within s v id since → ∀ conn rf draws, rf.id = id →
    ((handleRelayArm lib conn rf draws).run (exec lib expired) v).1 = true →
    ∃ msg, ((handleRelayArm lib conn rf draws).run (exec lib expired) v).2.queue = v.queue ++ [.msg msg addr]
  query : ∀ v, Within s v id since → ∀ (peers : List String) (i : Nat), peers[i]? = some id →
    ((onlineList peers).run (exec lib expired) v).1[i]? = some true

/- The sink of the connection was adopted, and what is pushed to its address is written to it. -/
def Adopted (lib : Library) (expired : Nat → Nat) (s s' : Server) (conn : Conn) : Prop :=
  ∀ sink, ownSink s conn = some sink → s'.tcpPeers.lookup (lib.tryIntoV4 conn.addr) = some sink ∧
    ∀ v, v.tcpPeers.lookup (lib.tryIntoV4 conn.addr) = some sink → ∀ msg,
      sends lib expired (deliver lib msg conn.addr) v = [(.sink sink,msg)]

/- The request changes something about the peer, or the peer was just there. -/
def Changes (p : Peer) (rk : RegisterPk) (addr : SocketAddr) (now : Nat) : Prop :=
  p.uuid = [] ∨ p.pk ≠ rk.pk ∨ p.info.ip ≠ addr.ip.text ∨ p.socketAddr = addr ∧ p.lastRegTime = now

section Requests
variable {lib : Library} {expired : Nat → Nat} {s v : Server} {id : String} {addr : SocketAddr} {since : Nat}

theorem seenLately {now : Nat} {last : Nat} (time : now < last + regTimeout) : ¬ 30000 ≤ (now - last) / 1000000 := by
  unfold regTimeout at time
  omega

/- The pointer to a peer that is in memory. -/
theorem pointerTo {p : Peer} (here : entry v.registry id = some p) :
    ∃ ref, v.registry.map.lookup id = some ref ∧ v.registry.peer ref = p :=
  Option.map_eq_some_iff.mp here

variable (lib expired) in
theorem getRun {p : Peer} (here : entry v.registry id = some p) (fails : Bool) :
    ∃ ref, (registry (PeerRegistry.PeerMap.get id fails)).run (exec lib expired) v = (some ref,v) ∧ v.registry.peer ref = p := by
  obtain ⟨ref,lookup,peer⟩ := pointerTo here
  refine ⟨ref,?_,peer⟩
  rw [registryRun,getRunSome lookup]

theorem punchFinds {p : Peer} (here : entry v.registry id = some p) (time : v.registry.now < p.lastRegTime + regTimeout)
    (config : Config) (key : String) (conn : Conn) {ph : PunchHoleRequest} (draws : Draws) (named : ph.id = id)
    (licence : key = "" ∨ ph.licenceKey = key) :
    ∃ msg, ((handleTcpPunchHoleRequest lib config key conn ph draws).run (exec lib expired) v).2.queue =
      v.queue ++ [.msg msg p.socketAddr] := by
  subst named
  obtain ⟨ref,got,peer⟩ := getRun lib expired here draws.out.getPeer
  have licensed : ¬ (!key.isEmpty ∧ ph.licenceKey ≠ key) := by
    rintro ⟨some,other⟩
    rcases licence with none | same
    · simp [none] at some
    · exact other same
  have recent := seenLately time
  -- once the peer was seen, all that is left of the request answers with its address
  have answer : ((handlePunchHoleRequest lib config key conn ph draws).run (exec lib expired) v).1.2 = some p.socketAddr := by
    unfold handlePunchHoleRequest act
    rw [if_neg licensed,runBind,got]
    simp only [performIs,bindOp,bindRet]
    rw [Prog.run]
    simp only [exec,peer,if_neg recent]
    refine runEnds (Q := fun made : Message × Option SocketAddr => made.2 = some p.socketAddr) ?_ v
    refine fun _ => endsBind.mpr (endsAll (fun done server _ => ?_) _ _)
    rw [endsIte]
    exact ⟨fun _ => rfl,fun _ => rfl⟩
  have queue : ((handlePunchHoleRequest lib config key conn ph draws).run (exec lib expired) v).2.queue = v.queue :=
    runKeeps Server.queue (P := fun o => ∀ s, (exec lib expired o s).2.queue = s.queue) (fun _ same => same)
      (everyPunchRequest (fun _ _ => rfl) (fun _ _ => rfl) (fun _ _ _ s => by simp only [exec]; split <;> rfl)
        (fun _ => rfl) (fun _ => rfl) ph) v
  unfold handleTcpPunchHoleRequest act
  rw [runBind]
  generalize (handlePunchHoleRequest lib config key conn ph draws).run (exec lib expired) v = done at answer queue ⊢
  obtain ⟨⟨msg,toAddr⟩,v'⟩ := done
  simp only at answer queue ⊢
  subst answer
  exact ⟨msg,by rw [← queue]; rfl⟩

/- A relay request that is let through goes to where the peer is. -/
theorem relayFinds {p : Peer} (here : entry v.registry id = some p) (conn : Conn) {rf : RequestRelay} (draws : Draws)
    (named : rf.id = id) (allowed : ((handleRelayArm lib conn rf draws).run (exec lib expired) v).1 = true) :
    ∃ msg, ((handleRelayArm lib conn rf draws).run (exec lib expired) v).2.queue = v.queue ++ [.msg msg p.socketAddr] := by
  subst named
  obtain ⟨ref,lookup,peer⟩ := pointerTo here
  have checks : (authorized lib rf.token draws).Every fun o => ∃ o', o = .account o' := everyAuthorized (fun o => ⟨o,rfl⟩) _
  have mints : (peerTicket lib rf.token rf.uuid draws).Every fun o => ∃ o', o = .account o' :=
    everyPeerTicket (fun o => ⟨o,rfl⟩) _ _
  have first := accountKeeps lib expired checks v
  unfold handleRelayArm act at allowed ⊢
  simp only [performIs,bindOp,bindRet,runBind] at allowed ⊢
  generalize (authorized lib rf.token draws).run (exec lib expired) v = done at first allowed ⊢
  obtain ⟨yes,v'⟩ := done
  cases yes with
  | false => cases allowed
  | true =>
    simp only [Bool.not_true,Bool.false_eq_true,if_false,runBind] at first ⊢
    have second := accountKeeps lib expired mints v'
    generalize (peerTicket lib rf.token rf.uuid draws).run (exec lib expired) v' = done at second ⊢
    obtain ⟨ticket,u⟩ := done
    have kept : (u.relink conn fun link => { link with sink := none }).registry = v.registry ∧
        (u.relink conn fun link => { link with sink := none }).queue = v.queue := by
      have same : u.registry = v.registry ∧ u.queue = v.queue := by
        rw [show u = _ from second,first]
        exact ⟨rfl,rfl⟩
      rw [relinkRest]
      exact same
    simp only [Prog.run,exec]
    generalize u.relink conn _ = r at kept ⊢
    cases (u.links.lookup conn).bind Link.sink with
    | none =>
      simp only [runBind,registryRun,PeerRegistry.act,performIs,Prog.run,PeerRegistry.exec,kept.1,lookup,peer,exec,pureIsRet]
      exact ⟨_,by rw [kept.2]⟩
    | some sink =>
      simp only [Prog.run,exec,runBind,registryRun,PeerRegistry.act,performIs,PeerRegistry.exec,kept.1,lookup,peer,pureIsRet]
      exact ⟨_,by rw [kept.2]⟩

theorem queryFinds {p : Peer} (here : entry v.registry id = some p) (time : v.registry.now < p.lastRegTime + regTimeout) :
    ∀ (peers : List String) (i : Nat), peers[i]? = some id → ((onlineList peers).run (exec lib expired) v).1[i]? = some true := by
  intro peers
  induction peers with
  | nil => intro i wrong; cases wrong
  | cons head rest ih =>
    intro i found
    have step : ∃ online : Bool, (head = id → online = true) ∧
        (onlineList (head :: rest)).run (exec lib expired) v =
          (online :: ((onlineList rest).run (exec lib expired) v).1,((onlineList rest).run (exec lib expired) v).2) := by
      simp only [onlineList,act,runBind,registryRun,PeerRegistry.act,performIs,Prog.run,PeerRegistry.exec]
      cases lookup : v.registry.map.lookup head with
      | none =>
        simp only [runBind,pureIsRet,Prog.run]
        refine ⟨false,fun same => ?_,rfl⟩
        rw [entry,← same,lookup] at here
        cases here
      | some ref =>
        simp only [bindOp,bindRet,Prog.run,exec,runBind,pureIsRet]
        refine ⟨_,fun same => ?_,rfl⟩
        rw [same] at lookup
        have peer : v.registry.peer ref = p := Option.some.inj ((entryOf lookup).symm.trans here)
        rw [← peer] at time
        exact decide_eq_true (Nat.not_le.mp (seenLately time))
    obtain ⟨online,mine,run⟩ := step
    rw [run]
    cases i with
    | zero =>
      rw [List.getElem?_cons_zero] at found ⊢
      rw [mine (Option.some.inj found)]
    | succ i => exact ih i found

/- A peer that is stored at the address since then is found there. -/
theorem onlineStored {p : Peer} (here : entry s.registry id = some p) (address : p.socketAddr = addr)
    (time : p.lastRegTime = since) : Online lib expired s id addr since := by
  subst address time
  have still : ∀ {v}, Within s v id p.lastRegTime → entry v.registry id = some p := fun within => within.entry.trans here
  exact ⟨⟨p,here,rfl,rfl⟩,
    fun v within config key conn ph draws named licence => punchFinds (still within) within.time config key conn draws named licence,
    fun v within conn rf draws named allowed => relayFinds (still within) conn draws named allowed,
    fun v within => queryFinds (still within) within.time⟩

/- On both ways the registry gets what `register_pk_result` leaves behind. -/
theorem handledRegistry (a : Arrival) {bytes : Bytes} {rk : RegisterPk} (parsed : lib.parse bytes = some (.registerPk rk))
    (proper : rk.uuid ≠ [] ∧ rk.pk ≠ []) (config : Config) (key : String) (draws : Draws) :
    ((a.handling lib config key bytes draws).run (exec lib expired) s).2.registry =
      ((registerPkResult rk a.addr draws.newGuid draws.out).run (PeerRegistry.exec expired) s.registry).2 := by
  cases a with
  | udp addr =>
    have some : ¬ (rk.uuid.isEmpty || rk.pk.isEmpty) = true := by simp [proper]
    simp only [Arrival.handling,handleUdp,parsed,if_neg some,act,performIs,runBind,registryRun,Prog.run,exec,Arrival.addr]
  | tcp conn =>
    simp only [Arrival.handling,handleTcp,parsed,registerPkAdopting proper.1 proper.2,runBind,pureIsRet,Prog.run,Arrival.addr]
    rw [(adoptingRun lib expired conn _ _ s).1]

theorem handledAdopts (conn : Conn) {bytes : Bytes} {rk : RegisterPk} (parsed : lib.parse bytes = some (.registerPk rk))
    (proper : rk.uuid ≠ [] ∧ rk.pk ≠ []) (config : Config) (key : String) (draws : Draws)
    (own : ∀ sink, ownSink s conn = some sink → sink ≠ .closed) :
    Adopted lib expired s (((Arrival.tcp conn).handling lib config key bytes draws).run (exec lib expired) s).2 conn := by
  intro sink mine
  constructor
  · simp only [Arrival.handling,handleTcp,parsed,registerPkAdopting proper.1 proper.2,runBind,pureIsRet,Prog.run]
    rw [(adoptingRun lib expired conn _ _ s).2.2.1,if_pos rfl,slotAfter,mine]
    rfl
  · intro v there msg
    rw [(deliverRun conn.addr msg v).2,there]
    exact slotLive (own sink mine) msg

theorem checkChanged {q : Peer} {rk : RegisterPk} {ip : String} {ipChanged : Bool}
    (check : checkPeer q rk ip = some (true,ipChanged)) : q.uuid = [] ∨ q.pk ≠ rk.pk ∨ q.info.ip ≠ ip := by
  unfold checkPeer at check
  split at check
  · rename_i empty
    exact .inl (List.isEmpty_iff.mp empty)
  · split at check <;> try contradiction
    rename_i same
    split at check <;> try contradiction
    have differs := (Prod.mk.inj (Option.some.inj check)).1
    simp only [same,Bool.or_eq_true,decide_eq_true_eq,ne_eq,not_true,false_or] at differs
    exact .inr differs

end Requests

section Runs
variable {lib : Library} {expired : Nat → Nat} {key : String} {ok : World → Act Call Env → Prop} {accounts : AccountStore.Store}
variable {now : Nat} {table : Peers} {config : Config} {w : World}

theorem registryPlaced (reach : (machine lib expired key).Reach ok (.init accounts (.init now table) config) w) :
    Placed w.shared.registry := by
  refine Machine.invariant (I := fun w => Placed w.shared.registry) (placedEmpty now table) ?_ ?_ ?_ reach
  · exact fun w c _ _ ih => ih
  · intro w i c o next _ _ _ _ ih
    simp only [Machine.performed,machine,execRegistry]
    cases o with
    | registry o => exact PeerHandshake.placedExec ih o
    | trimBlocker forget | trimChanges forget => exact ⟨ih.inside,ih.apart⟩
    | _ => exact ih
  · intro w e _ _ ih
    cases e with
    | tick ns => exact ⟨ih.inside,ih.apart⟩
    | seconds n => exact ih

/- As long as nothing else becomes of the peer, an OK to RegisterPk makes it online at the address
it came from exactly when the request changed something about the peer. -/
theorem okOnlineIfChanged (reach : (machine lib expired key).Reach ok (.init accounts (.init now table) config) w)
    (a : Arrival) {bytes : Bytes} {rk : RegisterPk} (parsed : lib.parse bytes = some (.registerPk rk))
    (proper : rk.uuid ≠ [] ∧ rk.pk ≠ []) (config' : Config) (draws : Draws)
    (answered : ((registerPkResult rk a.addr draws.newGuid draws.out).run (PeerRegistry.exec expired) w.shared.registry).1 = .ok) :
    (Online lib expired ((a.handling lib config' key bytes draws).run (exec lib expired) w.shared).2 rk.id a.addr
        w.shared.registry.now ∧
      ∀ conn, a = .tcp conn →
        Adopted lib expired w.shared ((a.handling lib config' key bytes draws).run (exec lib expired) w.shared).2 conn) ↔
      Changes (found expired w.shared.registry rk.id draws.out.getPeer) rk a.addr w.shared.registry.now := by
  have own : ∀ conn sink, ownSink w.shared conn = some sink → sink ≠ .closed := by
    intro conn sink mine
    obtain ⟨link,there,inside⟩ := Option.bind_eq_some_iff.mp mine
    have writes := keptSinkOwn rfl reach conn link sink there inside
    rintro rfl
    cases writes
  have adopts : ∀ conn, a = .tcp conn →
      Adopted lib expired w.shared ((a.handling lib config' key bytes draws).run (exec lib expired) w.shared).2 conn := by
    rintro conn rfl
    exact handledAdopts conn parsed proper config' key draws (own conn)
  rw [and_iff_left adopts]
  obtain ⟨p,t,registered,moved⟩ := registerPkRun expired (registryPlaced reach) rk a.addr draws.newGuid draws.out
  have here := moved.here
  rw [← handledRegistry a parsed proper config' key draws] at here
  rw [answered] at registered
  cases registered with
  | early held bad => exact absurd rfl bad
  | checked passes rest =>
    cases rest with
    | refused bad _ => exact absurd rfl bad
    | changed check stored =>
      refine iff_of_true (onlineStored here rfl rfl) ?_
      rcases checkChanged check with unbound | other | elsewhere
      · exact .inl unbound
      · exact .inr (.inl other)
      · exact .inr (.inr (.inl elsewhere))
    | unchanged check =>
      obtain ⟨bound,_,pk,text⟩ := PeerSequence.checkSame check
      constructor
      · intro online
        obtain ⟨p,there,address,time⟩ := online.stored
        cases Option.some.inj (here.symm.trans there)
        exact .inr (.inr (.inr ⟨address,time⟩))
      · rintro (unbound | other | moved | ⟨address,time⟩)
        · exact absurd unbound bound
        · exact absurd pk other
        · exact absurd text moved
        · exact onlineStored here address time

end Runs

section Concrete
open PeerHandshake (homeAddr homeKey)

/- A library under which every frame and every datagram is the RegisterPk. -/
def keyLibrary : Library := plainLibrary fun _ => some (.registerPk homeKey)

def drawn : Draws := ⟨AccountCalls.mintedB,[9],.none,false⟩

/- The server after a restart: the peer is in the table. -/
def restarted : Server :=
  .init (.init 100) (.init bootInstant
    (PeerSequence.answering hourAgo (.registerPk homeKey homeAddr [1] .none) (.init bootInstant .empty)).2.table) oneServer

def repeated : Server := (((Arrival.udp homeAddr).handling keyLibrary oneServer "" [] drawn).run (exec keyLibrary hourAgo) restarted).2

theorem repeatedKeyLeavesOffline : ∃ w, (machine keyLibrary hourAgo "").Reach (fun _ _ => True) restarted w ∧
    ((registerPkResult homeKey homeAddr [9] .none).run (PeerRegistry.exec hourAgo) w.shared.registry).1 = .ok ∧
    (((Arrival.udp homeAddr).handling keyLibrary oneServer "" [] drawn).run (exec keyLibrary hourAgo) w.shared).2 = repeated ∧
    ((handlePunchHoleRequest keyLibrary oneServer "" ⟨0,⟨.v4 203 0 113 9,4000⟩,false⟩ ⟨homeKey.id,.asymmetric,"",""⟩ drawn).run
      (exec keyLibrary hourAgo) repeated).1 = (refusal .offline,none) ∧
    ¬ Online keyLibrary hourAgo repeated homeKey.id homeAddr w.shared.registry.now := by
  refine ⟨_,.initial,by decide +kernel,rfl,by decide +kernel,fun online => ?_⟩
  obtain ⟨p,here,address,_⟩ := online.stored
  have unset : (entry repeated.registry homeKey.id).map Peer.socketAddr = some PeerRegistry.unset := by decide +kernel
  rw [here,Option.map_some,address] at unset
  cases unset

def homeConn : Conn := ⟨0,homeAddr,false⟩

def accepts : List (Act Call Env) := .start (.accept homeConn [] []) :: List.replicate 4 (.advance 0)

/- A first registration, over TCP. -/
theorem firstKeyBringsOnline : ∃ w, (machine keyLibrary hourAgo "").Reach (fun _ _ => True)
      (.init (.init 100) (.init bootInstant .empty) oneServer) w ∧
    ownSink w.shared homeConn = some (.tcpStream homeConn none) ∧
    Online keyLibrary hourAgo (((Arrival.tcp homeConn).handling keyLibrary oneServer "" [] drawn).run (exec keyLibrary hourAgo)
      w.shared).2 homeKey.id homeAddr w.shared.registry.now ∧
    Adopted keyLibrary hourAgo w.shared (((Arrival.tcp homeConn).handling keyLibrary oneServer "" [] drawn).run
      (exec keyLibrary hourAgo) w.shared).2 homeConn := by
  obtain ⟨w,reach,done⟩ := Machine.reachWith (m := machine keyLibrary hourAgo "")
    (s := .init (.init 100) (.init bootInstant .empty) oneServer) (fun _ _ => True) (fun _ _ => true)
      (fun _ _ _ => trivial) accepts
    (P := fun w => decide (ownSink w.shared homeConn = some (.tcpStream homeConn none) ∧
      ((registerPkResult homeKey homeAddr [9] .none).run (PeerRegistry.exec hourAgo) w.shared.registry).1 = .ok ∧
      (found hourAgo w.shared.registry homeKey.id false).uuid = [])) (by decide +kernel)
  obtain ⟨sink,answered,unbound⟩ := of_decide_eq_true done
  have parsed : keyLibrary.parse [] = some (.registerPk homeKey) := rfl
  obtain ⟨online,adopted⟩ := (okOnlineIfChanged reach (.tcp homeConn) parsed ⟨by decide,by decide⟩ oneServer drawn answered).mpr
    (.inl unbound)
  exact ⟨w,reach,sink,online,adopted homeConn rfl⟩

end Concrete
end OpenuuServer.PeerOnline
