import OpenuuServer.PeerSequence
import OpenuuServer.RendezvousService

/-! The handlers of hbbs one at a time: what each leaves behind and what it sends when nothing
else touches the server while it runs. -/
namespace OpenuuServer.RendezvousRuns
open AtomicProgram RendezvousMessages RendezvousServer RendezvousPrograms RendezvousService
open PeerRegistry (Bytes SocketAddr LockPeer Registry Outage)

def sent : Did Op Resp → Option (Route × Message)
  | ⟨.send route m,_⟩ => some (route,m)
  | _ => none

/- The same server up to the order of the entries of `tcp_peers`. -/
structure Alike (s s' : Server) : Prop where
  peers : ∀ key, s'.tcpPeers.lookup key = s.tcpPeers.lookup key
  rest : s' = { s with tcpPeers := s'.tcpPeers }

theorem alikeSame (s : Server) : Alike s s := ⟨fun _ => rfl,rfl⟩

section Parts
variable (lib : Library) (expired : Nat → Nat)

/- What a program sends on its own. -/
def sends {α : Type} (p : Prog Op Resp α) (s : Server) : List (Route × Message) :=
  (p.trace (exec lib expired) s).filterMap sent

variable {lib expired} {α β : Type} {s : Server}

theorem sendsBind (p : Prog Op Resp α) (k : α → Prog Op Resp β) (s : Server) : sends lib expired (p >>= k) s =
    sends lib expired p s ++ sends lib expired (k (p.run (exec lib expired) s).1) (p.run (exec lib expired) s).2 := by
  rw [sends,traceBind,List.filterMap_append]
  rfl

theorem sendsNone {p : Prog Op Resp α} (quiet : p.Every fun o => ∀ route m, o ≠ .send route m) (s : Server) :
    sends lib expired p s = [] := by
  rw [sends,List.filterMap_eq_nil_iff]
  rintro ⟨o,r⟩ member
  have other := traceEvery quiet s _ member
  cases o with
  | send route m => exact absurd rfl (other route m)
  | _ => rfl

theorem registryRun (p : Prog PeerRegistry.Op PeerRegistry.Resp α) (s : Server) :
    (registry p).run (exec lib expired) s = ((p.run (PeerRegistry.exec expired) s.registry).1,
      { s with registry := (p.run (PeerRegistry.exec expired) s.registry).2 }) := by
  induction p generalizing s with
  | ret value => rfl
  | op o next ih => exact ih _ _

theorem registryQuiet (p : Prog PeerRegistry.Op PeerRegistry.Resp α) (s : Server) :
    sends lib expired (registry p) s = [] :=
  sendsNone (everyRegistry (fun _ _ _ => nofun) p) s

theorem relinkRest (s : Server) (conn : Conn) (f : Link → Link) :
    s.relink conn f = { s with links := (s.relink conn f).links } := by
  unfold Server.relink
  split <;> rfl

/- What an operation makes of the registry. -/
def registryAfter (expired : Nat → Nat) (r : Registry) : Op → Registry
  | .registry o => (PeerRegistry.exec expired o r).2
  | .trimBlocker forget => { r with ipBlocker := trimBlocker r.now forget r.ipBlocker }
  | .trimChanges forget => { r with ipChanges := trimChanges r.now forget r.ipChanges }
  | _ => r

theorem execRegistry (o : Op) (s : Server) : (exec lib expired o s).2.registry = registryAfter expired s.registry o := by
  cases o with
  | peersTake key => simp only [exec,registryAfter]; split <;> rfl
  | peersPutBack key sink => simp only [exec,registryAfter]; split <;> rfl
  | recordPunch fromIp toIp toId => simp only [exec,registryAfter]; split <;> rfl
  | receive conn frame => simp only [exec]; rw [relinkRest]; rfl
  | offerKey conn secret => simp only [exec]; rw [relinkRest]; rfl
  | secure conn symmetric => simp only [exec]; rw [relinkRest]; rfl
  | takeSink conn => simp only [exec]; rw [relinkRest]; rfl
  | _ => rfl

variable (lib expired) in
/- A handler's use of the account store leaves all else alone. -/
theorem accountKeeps {p : Prog Op Resp α} (all : p.Every fun o => ∃ o', o = .account o') (s : Server) :
    (p.run (exec lib expired) s).2 = { s with accounts := (p.run (exec lib expired) s).2.accounts } := by
  induction p generalizing s with
  | ret value => rfl
  | op o next ih =>
    obtain ⟨⟨o',rfl⟩,rest⟩ := all
    exact ih _ (rest _) _

/- What a slot of `tcp_peers` gets to send: a send that finds the placeholder is dropped. -/
def slotSends (slot : Option Sink) (msg : Message) : List (Route × Message) :=
  match slot with
  | none | some .closed => []
  | some sink => [(.sink sink,msg)]

theorem slotLive {sink : Sink} (live : sink ≠ .closed) (msg : Message) : slotSends (some sink) msg = [(.sink sink,msg)] := by
  cases sink with
  | closed => exact absurd rfl live
  | _ => rfl

/- A send takes the sink, writes, and puts it back. -/
theorem takenBack (m : Sinks) {k : SocketAddr} {sink : Sink} (here : m.lookup k = some sink) (key : SocketAddr) :
    ((m.insert k .closed).insert k sink).lookup key = m.lookup key := by
  rw [lookupInserted,lookupInserted]
  by_cases same : key = k
  · rw [if_pos same,same,here]
  · rw [if_neg same,if_neg same]

variable (lib expired) in
theorem sendToTcpPeerRun (addr : SocketAddr) (msg : Message) (s : Server) :
    Alike s ((sendToTcpPeer lib addr msg).run (exec lib expired) s).2 ∧
      ((sendToTcpPeer lib addr msg).run (exec lib expired) s).1 = (s.tcpPeers.lookup (lib.tryIntoV4 addr)).isSome ∧
      sends lib expired (sendToTcpPeer lib addr msg) s = slotSends (s.tcpPeers.lookup (lib.tryIntoV4 addr)) msg := by
  unfold sendToTcpPeer act
  simp only [performIs,bindOp,bindRet,Prog.run,sends,Prog.trace,exec]
  cases here : s.tcpPeers.lookup (lib.tryIntoV4 addr) with
  | none => exact ⟨alikeSame s,rfl,rfl⟩
  | some sink =>
    by_cases live : sink = .closed
    · subst live
      have closed : ∀ key, (s.tcpPeers.insert (lib.tryIntoV4 addr) .closed).lookup key = s.tcpPeers.lookup key := by
        intro key
        rw [lookupInserted]
        split
        · rename_i same
          rw [same,here]
        · rfl
      exact ⟨⟨closed,rfl⟩,rfl,rfl⟩
    · have send : sendToSink (some sink) msg = act (.send (.sink sink) msg) := sendLive live
      simp only [send,act,performIs,bindOp,bindRet,Prog.run,Prog.trace,exec,AList.lookup_insert,if_true,slotLive live]
      exact ⟨⟨takenBack _ here,rfl⟩,rfl,rfl⟩

theorem deliverRun (addr : SocketAddr) (msg : Message) (s : Server) :
    Alike s ((deliver lib msg addr).run (exec lib expired) s).2 ∧ sends lib expired (deliver lib msg addr) s =
      if (s.tcpPeers.lookup (lib.tryIntoV4 addr)).isSome then slotSends (s.tcpPeers.lookup (lib.tryIntoV4 addr)) msg
      else [(.udp addr,msg)] := by
  obtain ⟨alike,found,sent⟩ := sendToTcpPeerRun lib expired addr msg s
  unfold deliver act
  rw [runBind,sendsBind,found,sent]
  cases here : s.tcpPeers.lookup (lib.tryIntoV4 addr) with
  | none => exact ⟨alike,rfl⟩
  | some sink => exact ⟨alike,List.append_nil _⟩

/- The sink that a connection still has. -/
def ownSink (s : Server) (conn : Conn) : Option Sink := (s.links.lookup conn).bind Link.sink

theorem takeSinkOwn (s : Server) (conn conn' : Conn) :
    ownSink (s.relink conn fun link => { link with sink := none }) conn' = if conn' = conn then none else ownSink s conn' := by
  unfold ownSink
  rw [lookupRelink]
  split
  · cases s.links.lookup conn' <;> rfl
  · rfl

variable (lib expired) in
/- Registration takes the sink that the connection still has to `tcp_peers`. -/
theorem adoptSinkRun (conn : Conn) (s : Server) :
    let s' := ((adoptSink lib conn).run (exec lib expired) s).2
    s' = { s with links := s'.links,tcpPeers := s'.tcpPeers } ∧
    (∀ conn', ownSink s' conn' = if conn' = conn then none else ownSink s conn') ∧
    (∀ key, s'.tcpPeers.lookup key = if key = lib.tryIntoV4 conn.addr then (ownSink s conn).or (s.tcpPeers.lookup key)
      else s.tcpPeers.lookup key) ∧ sends lib expired (adoptSink lib conn) s = [] := by
  have rest := relinkRest s conn fun link => { link with sink := none }
  have own := takeSinkOwn s conn
  unfold adoptSink act
  simp only [performIs,bindOp,bindRet,Prog.run,sends,Prog.trace,exec]
  rw [show (s.links.lookup conn).bind Link.sink = ownSink s conn from rfl]
  generalize s.relink conn _ = r at rest own
  cases ownSink s conn with
  | none =>
    simp only [pureIsRet,Prog.run,Prog.trace]
    refine ⟨by rw [rest],own,fun key => ?_,rfl⟩
    rw [rest]
    split <;> rfl
  | some sink =>
    simp only [Prog.run,exec,Prog.trace]
    refine ⟨by rw [rest],own,fun key => ?_,rfl⟩
    rw [lookupInserted,rest]
    rfl

/- What both registrations over TCP begin with. -/
def adopting (lib : Library) (conn : Conn) (p : Prog PeerRegistry.Op PeerRegistry.Resp α) (msg : α → Message) :
    Prog Op Resp Unit := do
  adoptSink lib conn
  let r ← registry p
  let _ ← sendToTcpPeer lib conn.addr (msg r)

theorem registerPkAdopting {rk : PeerRegistry.RegisterPk} (uuid : rk.uuid ≠ []) (pk : rk.pk ≠ []) (conn : Conn) (draws : Draws) :
    handleTcpRegisterPk lib rk conn draws =
      adopting lib conn (PeerRegistry.registerPkResult rk conn.addr draws.newGuid draws.out) .registerPkResponse := by
  unfold handleTcpRegisterPk adopting
  rw [if_neg (by simp [uuid,pk])]

theorem registerPeerAdopting {rp : RegisterPeer} (id : rp.id ≠ "") (config : Config) (conn : Conn) :
    handleTcpRegisterPeer lib config rp conn =
      adopting lib conn (PeerRegistry.registerPeerResponse rp.id conn.addr) .registerPeerResponse >>= fun _ =>
        if rp.serial < config.inner.serial then do
          let _ ← sendToTcpPeer lib conn.addr (.configureUpdate (configUpdate config))
        else return () := by
  unfold handleTcpRegisterPeer adopting
  rw [if_neg (by simpa using id)]
  simp only [bind_assoc,pure_bind]

/- The slot of a connection's address once the connection registered. -/
def slotAfter (lib : Library) (s : Server) (conn : Conn) : Option Sink :=
  (ownSink s conn).or (s.tcpPeers.lookup (lib.tryIntoV4 conn.addr))

variable (lib expired) in
theorem adoptingRun (conn : Conn) (p : Prog PeerRegistry.Op PeerRegistry.Resp α) (msg : α → Message) (s : Server) :
    let s' := ((adopting lib conn p msg).run (exec lib expired) s).2
    s' = { s with links := s'.links,tcpPeers := s'.tcpPeers,registry := (p.run (PeerRegistry.exec expired) s.registry).2 } ∧
    (∀ conn', ownSink s' conn' = if conn' = conn then none else ownSink s conn') ∧
    (∀ key, s'.tcpPeers.lookup key = if key = lib.tryIntoV4 conn.addr then slotAfter lib s conn else s.tcpPeers.lookup key) ∧
    sends lib expired (adopting lib conn p msg) s =
      slotSends (slotAfter lib s conn) (msg (p.run (PeerRegistry.exec expired) s.registry).1) := by
  obtain ⟨rest,own,slots,quiet⟩ := adoptSinkRun lib expired conn s
  unfold adopting
  simp only [runBind,sendsBind,registryRun,registryQuiet,quiet,List.nil_append]
  generalize ((adoptSink lib conn).run (exec lib expired) s).2 = v at rest own slots
  have same : v.registry = s.registry := by rw [rest]
  rw [same]
  generalize p.run (PeerRegistry.exec expired) s.registry = done
  obtain ⟨alike,_,sent⟩ := sendToTcpPeerRun lib expired conn.addr (msg done.1)
    { v with registry := done.2 }
  have here : slotAfter lib s conn = v.tcpPeers.lookup (lib.tryIntoV4 conn.addr) := by rw [slots,if_pos rfl]; rfl
  rw [sent,← here]
  simp only [pureIsRet,Prog.run]
  generalize ((sendToTcpPeer lib conn.addr (msg done.1)).run (exec lib expired) { v with registry := done.2 }).2 = u at alike ⊢
  refine ⟨by rw [alike.rest,rest],fun conn' => ?_,fun key => ?_,List.append_nil _⟩
  · rw [← own conn',ownSink,alike.rest]
    rfl
  · rw [alike.peers,slots]
    split
    · rename_i same
      rw [same]
      rfl
    · rfl

end Parts
end OpenuuServer.RendezvousRuns
