import OpenuuServer.HandlerAuthority
import OpenuuServer.SinkLeaks

/-! How often a waiting connection is answered. Its sink goes into `tcp_punch` or `tcp_peers` once, be
there however many requests on it, and a sink that was taken out of `tcp_punch` is not put back. -/
namespace OpenuuServer.AnsweredOnce
open AtomicProgram HistoryFolds RendezvousMessages RendezvousServer RendezvousPrograms RendezvousService
open PeerRegistry (Bytes SocketAddr LockPeer)

def stores : Op → Bool
  | .punchInsert _ _ | .peersInsert _ _ => true
  | _ => false

section Programs
variable {lib : Library} {conn : Conn} {config : Config} {key : String} {draws : Draws} {α : Type}

theorem parkStores {next : Option Sink → Prog Op Resp α} {rest : Prog Op Resp α} (absent : next none = rest)
    (present : ∀ s, ∃ o, next (some s) = .op o fun _ => rest) (free : rest.Every fun o => stores o = false) :
    Within stores 1 (.op (.takeSink conn) next : Prog Op Resp α) := by
  intro sink
  cases (sink : Option Sink) with
  | none =>
    rw [absent]
    exact withinFree 1 free
  | some s =>
    obtain ⟨o,same⟩ := present s
    rw [same]
    unfold Within
    split
    · exact ⟨Nat.one_pos,fun _ => withinFree 0 free⟩
    · exact fun _ => withinFree 1 free

theorem punchArmStores (ph : PunchHoleRequest) : Within stores 1 (handlePunchArm lib config key conn ph draws) := by
  have asked : (handleTcpPunchHoleRequest lib config key conn ph draws).Every fun o => stores o = false := by
    refine everyBind (everyPunchRequest (fun _ => rfl) (fun _ => rfl) (fun _ _ _ => rfl) (by rfl) (by rfl) ph) fun made => ?_
    obtain ⟨msg,toAddr⟩ := made
    cases toAddr with
    | none => exact everySendToTcp (fun _ => rfl) (fun _ => rfl) (fun _ => rfl) fun _ _ => rfl
    | some addr => exact everyAct rfl
  have rest : (PunchSessions.remember lib conn.addr ph.id ph.token >>= fun _ =>
      handleTcpPunchHoleRequest lib config key conn ph draws >>= fun _ => (.ret true : Prog Op Resp Bool)).Every fun o =>
      stores o = false := everyBind (everyAct rfl) fun _ => everyBind asked fun _ => trivial
  unfold handlePunchArm
  exact withinThen (everyAuthorized (fun _ => rfl) _) fun allowed => withinIte (withinFree (p := .ret false) 1 trivial)
    (parkStores rfl (fun _ => ⟨_,rfl⟩) rest)

theorem relayArmStores (rf : RequestRelay) : Within stores 1 (handleRelayArm lib conn rf draws) := by
  unfold handleRelayArm
  refine withinThen (everyAuthorized (fun _ => rfl) _) fun allowed => withinIte (withinFree (p := .ret false) 1 trivial) ?_
  refine withinThen (everyPeerTicket (fun _ => rfl) _ _) fun ticket => parkStores rfl (fun _ => ⟨_,rfl⟩) ⟨rfl,fun peer => ?_⟩
  cases (peer : Option LockPeer) with
  | none => trivial
  | some peer => exact ⟨rfl,fun p => ⟨rfl,fun _ => trivial⟩⟩

theorem adoptStores : Within stores 1 (adoptSink lib conn) := parkStores rfl (fun _ => ⟨_,rfl⟩) trivial

theorem tcpStores (bytes : Bytes) : Within stores 1 (handleTcp lib config key conn bytes draws) := by
  have tcpPeer : (isTcpPeer lib conn.addr).Every fun o => stores o = false := everyIsTcpPeer fun _ => rfl
  have pk : ∀ version id, (getPk lib config version id draws).Every fun o => stores o = false := everyGetPk fun _ => rfl
  have pushes : ∀ addr msg, (sendToTcpPeer lib addr msg).Every fun o => stores o = false :=
    fun addr msg => everySendToTcpPeer (fun _ => rfl) (fun _ => rfl) fun _ _ => rfl
  have answers : ∀ addr msg, (sendToTcp lib msg addr).Every fun o => stores o = false :=
    fun addr msg => everySendToTcp (fun _ => rfl) (fun _ => rfl) (fun _ => rfl) fun _ _ => rfl
  have replies : ∀ msg, (replyOnConnection lib conn msg).Every fun o => stores o = false :=
    fun msg => everyReplyOnConnection rfl (fun _ => rfl) (fun _ => rfl) fun _ _ => rfl
  have responds : ∀ rr, (handleResponseArm lib config conn rr draws).Every fun o => stores o = false := by
    intro rr
    refine everyBind ?_ fun _ => everyBind ?_ fun rr => everyBind ?_ fun server => answers _ _
    · refine everyIte.mpr ⟨fun _ => trivial,fun _ => ⟨rfl,fun token => ?_⟩⟩
      cases (token : Option String) with
      | none => trivial
      | some token =>
        refine everyBind (p := peerTicket lib token rr.uuid draws) (everyPeerTicket (fun _ => rfl) _ _) fun ticket => ?_
        cases ticket with
        | none => trivial
        | some ticket => exact replies _
    · exact everyIte.mpr ⟨fun _ => trivial,fun _ => everyBind (pk _ _) fun _ => trivial⟩
    · exact everyIte.mpr ⟨fun _ => trivial,fun _ => everyIte.mpr ⟨fun _ => trivial,fun _ =>
        everyIte.mpr ⟨fun _ => everyGetRelayServer rfl,fun _ => trivial⟩⟩⟩
  unfold handleTcp
  split
  · exact punchArmStores _
  · exact relayArmStores _
  · exact withinFree 1 (everyBind (responds _) fun _ => tcpPeer)
  · exact withinFree 1 (everyBind (everyBind (pk _ _) fun _ => answers _ _) fun _ => tcpPeer)
  · exact withinFree 1 (everyBind (everyBind (pk _ _) fun _ => answers _ _) fun _ => tcpPeer)
  · exact withinFree 1 (everyBind (replies _) fun _ => tcpPeer)
  · refine withinBefore (k := fun _ => .ret true) (withinIte (withinFree (p := .ret ()) 1 trivial)
      (withinBefore adoptStores fun _ => everyBind (everyRegistry (fun _ => rfl) _) fun _ => ?_)) fun _ => trivial
    exact everyBind (pushes _ _) fun _ => everyIte.mpr ⟨fun _ => everyBind (pushes _ _) fun _ => trivial,fun _ => trivial⟩
  · refine withinBefore (k := fun _ => .ret true) (withinIte (withinFree (p := .ret ()) 1 trivial)
      (withinBefore adoptStores fun _ => everyBind (everyRegistry (fun _ => rfl) _) fun _ => ?_)) fun _ => trivial
    exact everyBind (pushes _ _) fun _ => trivial
  · exact withinFree 1 tcpPeer

theorem programStores (lib : Library) (key : String) (c : Call) : Within stores 1 (program lib key c) := by
  have others : (∀ place sink, ¬ Performs c (.punchInsert place sink)) → (∀ place sink, ¬ Performs c (.peersInsert place sink)) →
      Within stores 1 (program lib key c) := by
    intro punch peers
    refine withinFree 1 (everyMono (fun o allowed => ?_) (programPerforms lib key c))
    cases o with
    | punchInsert place sink => exact absurd allowed (punch place sink)
    | peersInsert place sink => exact absurd allowed (peers place sink)
    | _ => rfl
  cases c with
  | tcp conn frame draws =>
    have closes : (closing lib conn).Every fun o => stores o = false := everyClosing rfl rfl rfl rfl
    have served : (act (.served conn)).Every fun o => stores o = false := everyAct rfl
    have handled : ∀ config bytes, Within stores 1 (handleTcp lib config key conn bytes draws >>= fun keep =>
        if keep then act (.served conn) else closing lib conn) :=
      fun config bytes => withinBefore (tcpStores bytes) fun keep => everyIte.mpr ⟨fun _ => served,fun _ => closes⟩
    intro link
    cases (link : Option Link) with
    | none => trivial
    | some link =>
      change Within stores 1 (serve lib key conn frame draws link)
      unfold serve
      split
      · exact fun _ => withinFree 1 served
      · exact withinFree 1 closes
      · split
        · exact fun _ => handled _ _
        · exact handled _ _
  | close conn =>
    exact withinFree 1 ⟨rfl,fun _ => everyClosing rfl rfl rfl rfl⟩
  | console addr cmd => cases cmd <;> exact others (fun _ _ wrong => by cases wrong) fun _ _ wrong => by cases wrong
  | _ => exact others (fun _ _ wrong => by cases wrong) fun _ _ wrong => by cases wrong

end Programs

/- The sink of the connection is stored in one of the two maps. -/
def Stored (e : Event Op Resp Call Server) (conn : Conn) : Prop :=
  ∃ place sink, (e.did.1 = .punchInsert place sink ∨ e.did.1 = .peersInsert place sink) ∧ owner sink = some conn

/- The connection is sent what it was waiting for: its sink has just been taken out of `tcp_punch`. -/
def Answers (w : World) (e : Event Op Resp Call Server) (conn : Conn) : Prop :=
  ∃ place sink m, e.did.1 = .send (.sink sink) m ∧ owner sink = some conn ∧
    ((w.past e).map Event.did).getLast? = some ⟨.punchRemove place,some sink⟩

section Runs
variable {lib : Library} {expired : Nat → Nat} {key : String} {ok : World → Act Call Env → Prop} {s : Server} {w : World}

theorem takenOnce (closed : s.links = ∅) (reach : (machine lib expired key).Reach ok s w) {a a' conn sink sink'}
    (left : a ∈ w.log) (right : a' ∈ w.log) (one : a.did = ⟨.takeSink conn,some sink⟩)
    (other : a'.did = ⟨.takeSink conn,some sink'⟩) : ¬ a.pos < a'.pos := by
  intro less
  obtain ⟨v,reached,_,shared,history,_⟩ := Machine.moment reach right
  obtain ⟨link,found,inside⟩ := takenKept reach right (.inl other)
  obtain ⟨_,gone⟩ := SinkLeaks.takenGone closed reached a ((history a).mpr ⟨left,less⟩) conn (congrArg Sigma.fst one)
  rw [← shared] at found
  cases (gone link found).symm.trans inside

/- Whoever stores a sink has taken it from its connection. -/
theorem storedTaken (closed : s.links = ∅) (reach : (machine lib expired key).Reach ok s w) {e conn} (member : e ∈ w.log)
    (stored : Stored e conn) : ∃ a ∈ w.log, a.task = e.task ∧ ∃ sink, a.did = ⟨.takeSink conn,some sink⟩ := by
  obtain ⟨place,sink,did,own⟩ := stored
  have due := dueEvent reach member
  have taken : ∃ conn', ⟨.takeSink conn',some sink⟩ ∈ (w.past e).map Event.did := by
    rcases did with did | did <;> rw [did] at due
    · obtain ⟨conn',_,_,taken⟩ := due
      exact ⟨conn',taken⟩
    · obtain ⟨conn',_,_,taken⟩ := due
      exact ⟨conn',taken⟩
  obtain ⟨conn',there⟩ := taken
  obtain ⟨a,past,did'⟩ := List.mem_map.mp there
  obtain ⟨inside,same⟩ := List.mem_filter.mp past
  obtain ⟨task,_⟩ := of_decide_eq_true same
  obtain rfl : conn' = conn := Option.some.inj ((takenSinkOwn closed reach inside (.inl did')).symm.trans own)
  exact ⟨a,inside,task,sink,did'⟩

theorem storedOnce (closed : s.links = ∅) (reach : (machine lib expired key).Reach ok s w) {e e' conn} (left : e ∈ w.log)
    (right : e' ∈ w.log) (stored : Stored e conn) (again : Stored e' conn) : e = e' := by
  obtain ⟨a,inside,task,sink,did⟩ := storedTaken closed reach left stored
  obtain ⟨a',inside',task',sink',did'⟩ := storedTaken closed reach right again
  have before := takenOnce closed reach inside inside' did did'
  have after := takenOnce closed reach inside' inside did' did
  have one := Machine.samePosition reach inside inside' (by omega)
  have kind : ∀ {x : Event Op Resp Call Server}, Stored x conn → stores x.did.1 = true := by
    rintro x ⟨_,_,did | did,_⟩ <;> rw [did] <;> rfl
  exact onceEach (fun _ c => withinOne (programStores lib key c)) reach left right (by rw [← task,← task',one]) (kind stored)
    (kind again)

end Runs

end OpenuuServer.AnsweredOnce
