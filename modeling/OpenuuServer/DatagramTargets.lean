import OpenuuServer.HandlerAuthority
import OpenuuServer.PushQueue

/-! Where hbbs sends datagrams. A datagram is answered to where it came from, with two at most; a peer is
pushed one only at an address from which it has itself registered. Over UDP nobody can make the
server write to an address of his choice. -/
namespace OpenuuServer.DatagramTargets
open AtomicProgram HistoryFolds RendezvousMessages RendezvousServer RendezvousPrograms RendezvousRuns
open PeerRegistry (Bytes SocketAddr LockPeer Registry)

/- Where the message comes from that a task handles. -/
def origin : Call → Option SocketAddr
  | .udp addr _ _ => some addr
  | .tcp conn _ _ => some conn.addr
  | _ => none

/- The address that an operation stores with a peer. -/
def stores : Op → Option SocketAddr
  | .registry (.peerUpdate _ addr _ _ _) | .registry (.peerRefresh _ addr) => some addr
  | _ => none

def isDatagram : Op → Bool
  | .send (.udp _) _ => true
  | _ => false

section Programs
variable {lib : Library} {key : String} {conn : Conn} {config : Config} {draws : Draws} {source : Option SocketAddr}

/- A handler stores no address but the one its message came from. -/
def Own (source : Option SocketAddr) (o : Op) : Prop := stores o = none ∨ stores o = source

/- One datagram in, at most two datagrams out. -/
theorem udpWithin (addr : SocketAddr) (bytes : Bytes) : Within isDatagram 2 (program lib key (.udp addr bytes draws)) := by
  have stored : ∀ {α : Type} (p : Prog PeerRegistry.Op PeerRegistry.Resp α), Within isDatagram 0 (registry p) :=
    fun p => withinFree 0 (everyRegistry (fun _ => rfl) p)
  have one : ∀ m, Within isDatagram 1 (act (.send (.udp addr) m)) := fun m => ⟨Nat.one_pos,fun _ => trivial⟩
  have handled : ∀ config, Within isDatagram 2 (handleUdp lib config addr bytes draws) := by
    intro config
    unfold handleUdp
    split
    · split
      · refine withinBind (n := 0) (k := 2) (stored _) fun _ => withinBind (n := 1) (k := 1) (one _) fun _ => ?_
        split
        · exact one _
        · trivial
      · trivial
    · split
      · trivial
      · exact withinBind (n := 0) (k := 2) (stored _) fun _ => withinBind (n := 1) (k := 1) (one _) fun _ => trivial
    · exact withinBind (n := 1) (k := 1) (one _) fun _ => trivial
    · split
      · exact withinFree 2 ⟨rfl,fun _ => trivial⟩
      · trivial
    · split
      · exact withinBind (n := 1) (k := 1) (one _) fun _ => trivial
      · trivial
    · trivial
  show Within isDatagram 2 (turning fun config => handleUdp lib config addr bytes draws)
  unfold turning
  refine withinBind (n := 0) (k := 2) (withinFree 0 (everyAct rfl)) fun config => ?_
  exact withinBind (n := 2) (k := 0) (handled config) fun _ => withinFree 0 ⟨rfl,fun _ => trivial⟩

end Programs

section Runs
variable {lib : Library} {expired : Nat → Nat} {key : String} {ok : World → Act Call Env → Prop} {s : Server} {w : World}

/- Some peer in memory has the address. -/
def Listed (s : Server) (addr : SocketAddr) : Prop := addr ≠ PeerRegistry.unset ∧ ∃ p ∈ s.registry.heap, p.socketAddr = addr

theorem queueSourced : Sourced (machine lib expired key) (fun s d => d ∈ s.queue) fun o d => o = .enqueue d where
  op o s d inside := by
    rw [show ((machine lib expired key).exec o s).2.queue = RendezvousConfig.queueAfter s.queue o from
      (RendezvousConfig.execLoop lib expired o s).2.2] at inside
    cases o with
    | enqueue d' =>
      refine (List.mem_append.mp inside).imp_right fun last => ?_
      rw [List.mem_singleton.mp last]
    | dequeue => exact .inl (List.mem_of_mem_tail inside)
    | _ => exact .inl inside
  env e s d inside := by cases e <;> exact inside

/- What the loop takes from the queue was put there. -/
theorem takenQueued (empty : s.queue = []) (reach : (machine lib expired key).Reach ok s w) {e : PushQueue.Happening} (member : e ∈ w.log)
    {d : Data} (took : e.did = ⟨.dequeue,some d⟩) : ∃ q ∈ w.log, q.pos < e.pos ∧ q.did.1 = .enqueue d := by
  have first : some d = e.before.queue.head? := Machine.responseIs reach member took
  rcases sourcedBefore queueSourced reach member (List.mem_of_head? first.symm) with there | put
  · rw [empty] at there
    cases there
  · exact put

/- A turn sends what was queued, and a datagram to the address it was queued for. -/
theorem turnSends (empty : s.queue = []) (reach : (machine lib expired key).Reach ok s w) {e : PushQueue.Happening}
    (member : e ∈ w.log) (turn : e.call = .turn) {m : Message} {route : Route} (sent : e.did.1 = .send route m) :
    ∃ addr slot, route = PushQueue.routeFor addr slot ∧ ∃ q ∈ w.log, q.pos < e.pos ∧ q.did.1 = .enqueue (.msg m addr) := by
  obtain ⟨v,reached,_,_,history,_,_,next,found⟩ := Machine.moment reach member
  rw [turn] at found
  obtain ⟨config,addr,slot,same,done⟩ := PushQueue.turnNow reached found _ _ sent
  have took : (⟨.dequeue,some (.msg m addr)⟩ : Did Op Resp) ∈ v.didsOf e.task := by
    rw [done]
    simp
  obtain ⟨b,early,_,did⟩ := didsOfMember.mp took
  obtain ⟨inside,less⟩ := (history b).mp early
  obtain ⟨q,kept,before,put⟩ := takenQueued empty reach inside did
  exact ⟨addr,slot,same,q,kept,by omega,put⟩

end Runs

def peerAddr : SocketAddr := ⟨.v4 198 51 100 7,21116⟩

end OpenuuServer.DatagramTargets
