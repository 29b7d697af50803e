import OpenuuServer.HistoryFolds
import OpenuuServer.RendezvousConfig
import OpenuuServer.RelayForcing

/-! What hbbs pushes to peers. A handler only queues such a message; the main loop takes one entry
a turn and writes it to the sink that is kept for the address, or sends it in a datagram. -/
namespace OpenuuServer.PushQueue
open AtomicProgram HistoryFolds RendezvousMessages RendezvousServer RendezvousPrograms RendezvousConfig
open PeerRegistry (SocketAddr)

abbrev Happening := Event Op Resp Call Server

def puts : Did Op Resp → List Data
  | ⟨.enqueue d,_⟩ => [d]
  | _ => []

def takes : Did Op Resp → List Data
  | ⟨.dequeue,data⟩ => Option.toList (α := Data) data
  | _ => []

def queuedSoFar (w : World) : List Data := w.log.flatMap fun e => puts e.did

def takenSoFar (w : World) : List Data := w.log.flatMap fun e => takes e.did

def isSend : Op → Bool
  | .send _ _ => true
  | _ => false

/- What the main loop has sent on behalf of the queue, in order. -/
def pushes (w : World) : List Happening := w.log.filter fun e => decide (e.call = .turn) && isSend e.did.1

def routeFor (addr : SocketAddr) : Option Sink → Route
  | some sink => .sink sink
  | none => .udp addr

/- The message goes out over the sink its task found for the address, else in a datagram. -/
def Goes (lib : Library) (w : World) (e : Happening) (d : Data) : Prop :=
  ∃ m addr slot, d = .msg m addr ∧ e.did.1 = .send (routeFor addr slot) m ∧
    ∃ a ∈ w.log, a.task = e.task ∧ a.pos < e.pos ∧ a.did = ⟨.peersTake (lib.tryIntoV4 addr),slot⟩

/- A queued message is pushed in its turn, once, and to its own address; only one whose slot in
tcp_peers is the placeholder at that moment is dropped. -/
structure Pushed (lib : Library) (w : World) : Prop where
  queued : queuedSoFar w = takenSoFar w ++ w.shared.queue
  sent : ∃ ds, ds.Sublist (takenSoFar w) ∧ List.Forall₂ (Goes lib w) (pushes w) ds
  served : ∀ e ∈ w.log, ∀ m addr, e.call = .turn → e.did = ⟨.dequeue,some (.msg m addr)⟩ → w.Answered e.task .turn () →
    (∃ p ∈ pushes w, p.task = e.task ∧ Goes lib w p (.msg m addr)) ∨
      ∃ a ∈ w.log, a.task = e.task ∧ a.did = ⟨.peersTake (lib.tryIntoV4 addr),some .closed⟩

section Turns
variable {lib : Library} {key : String}

/- A turn that sends has taken the message and looked for the sink, and nothing else. -/
def Guard (lib : Library) (done : List (Did Op Resp)) (o : Op) : Prop :=
  ∀ route m, o = .send route m → ∃ config addr slot, route = routeFor addr slot ∧
    done = [⟨.loopTurn,config⟩,⟨.dequeue,some (.msg m addr)⟩,⟨.peersTake (lib.tryIntoV4 addr),slot⟩]

/- A turn that took a message has sent it in the end, unless the sink was out. -/
def Served (lib : Library) (done : List (Did Op Resp)) : Prop :=
  ∀ m addr, ⟨.dequeue,some (.msg m addr)⟩ ∈ done → ∃ slot, done[2]? = some ⟨.peersTake (lib.tryIntoV4 addr),slot⟩ ∧
    (slot = some .closed ∨ done[3]? = some ⟨.send (routeFor addr slot) m,()⟩)

theorem guardFree {o : Op} (free : isSend o = false) (done : List (Did Op Resp)) : Guard lib done o := by
  rintro route m rfl
  contradiction

theorem turnAlong : (program lib key .turn).Along (Guard lib) (fun done _ => Served lib done) [] := by
  unfold program turning RendezvousServer.act
  simp only [performIs,bindOp,bindRet]
  refine ⟨guardFree rfl _,fun config => ⟨guardFree rfl _,fun data => ?_⟩⟩
  -- a turn that took no message has nothing to serve
  have idle : ∀ done, (∀ m addr, ⟨.dequeue,some (.msg m addr)⟩ ∉ done) →
      (Prog.op Op.loopDone fun _ => .ret () : Prog Op Resp Unit).Along (Guard lib) (fun done _ => Served lib done) done := by
    refine fun done none => ⟨guardFree rfl _,fun _ m addr member => ?_⟩
    rcases List.mem_append.mp member with old | last
    · exact absurd old (none m addr)
    · cases List.mem_singleton.mp last
  cases (data : Option Data) with
  | none => exact idle _ (by simp)
  | some data =>
    cases data with
    | msg m addr =>
      refine ⟨guardFree rfl _,fun slot => ?_⟩
      have guard : ∀ slot route, route = routeFor addr slot → Guard lib
          [⟨.loopTurn,config⟩,⟨.dequeue,some (.msg m addr)⟩,⟨.peersTake (lib.tryIntoV4 addr),slot⟩] (.send route m) := by
        rintro slot route rfl route' m' ⟨⟩
        exact ⟨config,addr,slot,rfl,rfl⟩
      have served : ∀ slot rest, (slot = some .closed ∨ rest[0]? = some ⟨.send (routeFor addr slot) m,()⟩) →
          (∀ d ∈ rest, ∀ data, d ≠ ⟨.dequeue,data⟩) →
          Served lib ([⟨.loopTurn,config⟩,⟨.dequeue,some (.msg m addr)⟩,⟨.peersTake (lib.tryIntoV4 addr),slot⟩] ++ rest) := by
        rintro slot rest done none m' addr' member
        have only : (⟨.dequeue,some (.msg m' addr')⟩ : Did Op Resp) = ⟨.dequeue,some (.msg m addr)⟩ := by
          rcases List.mem_append.mp member with old | last
          · simpa using old
          · exact absurd rfl (none _ last _)
        cases only
        exact ⟨slot,rfl,done⟩
      cases (slot : Option Sink) with
      | none =>
        exact ⟨guard none _ rfl,fun r => ⟨guardFree rfl _,fun _ => served none [⟨_,r⟩,⟨.loopDone,()⟩] (.inr rfl) (by simp)⟩⟩
      | some sink =>
        have sends : ∀ live, (Prog.op (Op.send (.sink live) m) fun _ =>
            .op (.peersPutBack (lib.tryIntoV4 addr) live) fun _ => .op Op.loopDone fun _ => .ret () : Prog Op Resp Unit).Along
            (Guard lib) (fun done _ => Served lib done)
            [⟨.loopTurn,config⟩,⟨.dequeue,some (.msg m addr)⟩,⟨.peersTake (lib.tryIntoV4 addr),some live⟩] :=
          fun live => ⟨guard (some live) _ rfl,fun r => ⟨guardFree rfl _,fun _ => ⟨guardFree rfl _,fun _ =>
            served (some live) [⟨_,r⟩,⟨.peersPutBack _ live,()⟩,⟨.loopDone,()⟩] (.inr rfl) (by simp)⟩⟩⟩
        cases sink with
        | closed => exact ⟨guardFree rfl _,fun _ => served (some .closed) [⟨.loopDone,()⟩] (.inl rfl) (by simp)⟩
        | tcpStream conn enc => exact sends _
        | ws conn => exact sends _
    | relayServers0 rs => exact ⟨guardFree rfl _,fun _ => idle _ (by simp)⟩
    | relayServers rs => exact ⟨guardFree rfl _,fun _ => idle _ (by simp)⟩

end Turns

section Runs
variable {lib : Library} {expired : Nat → Nat} {key : String} {ok : World → Act Call Env → Prop} {s : Server} {w : World}

theorem queueFifo : Queued (machine lib expired key) Server.queue puts takes where
  op o s := by
    show s.queue ++ puts ⟨o,(exec lib expired o s).1⟩ = takes ⟨o,(exec lib expired o s).1⟩ ++ (exec lib expired o s).2.queue
    rw [(execLoop lib expired o s).2.2]
    cases o with
    | enqueue d => rfl
    | dequeue =>
      show s.queue ++ [] = s.queue.head?.toList ++ s.queue.tail
      cases s.queue <;> simp
    | _ => simp [puts,takes,queueAfter]
  env e _ := by cases e <;> rfl

theorem turnNow (reach : (machine lib expired key).Reach ok s w) {i o} {next : Resp o → Prog Op Resp Unit}
    (found : w.tasks[i]? = some ⟨.turn,.op o next,true⟩) : Guard lib (w.didsOf i) o := by
  have guarded : (program lib key .turn).EveryAfter (Guard lib) [] := alongEvery turnAlong
  exact (everyAfterOnPath (Machine.taskPath reach found) guarded).1

theorem goesPerformed {i c o} {next : Resp o → Prog Op Resp Unit} {e d} (goes : Goes lib w e d) :
    Goes lib ((machine lib expired key).performed w i c o next) e d := by
  obtain ⟨m,addr,slot,same,sends,a,inside,rest⟩ := goes
  exact ⟨m,addr,slot,same,sends,a,Machine.stillThere inside,rest⟩

theorem pushesPerformed (i c o) (next : Resp o → Prog Op Resp Unit) :
    pushes ((machine lib expired key).performed w i c o next) = pushes w ++
      if c = .turn ∧ isSend o = true then [(machine lib expired key).happening w i c o] else [] := by
  have last : ∀ e : Happening, [e].filter (fun e => decide (e.call = .turn) && isSend e.did.1) =
      if e.call = .turn ∧ isSend e.did.1 = true then [e] else [] := by
    intro e
    by_cases hit : e.call = .turn ∧ isSend e.did.1 = true
    · simp [hit.1,hit.2]
    · rw [if_neg hit,List.filter_eq_nil_iff]
      intro e' member
      cases List.mem_singleton.mp member
      simpa using hit
  exact (List.filter_append _ _).trans (congrArg _ (last _))

theorem takenPerformed (i c o) (next : Resp o → Prog Op Resp Unit) :
    takenSoFar ((machine lib expired key).performed w i c o next) = takenSoFar w ++ takes ⟨o,(exec lib expired o w.shared).1⟩ := by
  simp [takenSoFar,Machine.performed,Machine.happening,machine]

/- What a turn has in hand and has not sent yet is the last that was taken, and all that was sent
came before it. -/
structure Ordered (lib : Library) (w : World) : Prop where
  sent : ∃ ds, ds.Sublist (takenSoFar w) ∧ List.Forall₂ (Goes lib w) (pushes w) ds
  inHand : ∀ i t d, turnOf (w.didsOf i) = some t → t.data = some d → (∀ x ∈ w.didsOf i, isSend x.1 = false) →
    ∃ front ds, takenSoFar w = front ++ [d] ∧ ds.Sublist front ∧ List.Forall₂ (Goes lib w) (pushes w) ds

theorem turnData {o : Op} {r : Resp o} {turn t d} (other : o ≠ .dequeue) (after : turnAfter ⟨o,r⟩ turn = some t)
    (data : t.data = some d) : ∃ t', turn = some t' ∧ t'.data = some d := by
  cases o with
  | loopTurn => cases after; cases data
  | loopDone => cases after
  | dequeue => contradiction
  | setConfig config =>
    obtain ⟨t',mine,rfl⟩ := Option.map_eq_some_iff.mp after
    exact ⟨t',mine,data⟩
  | _ => exact ⟨t,after,data⟩

theorem runOrdered (reach : (machine lib expired key).Reach ok s w) : Ordered lib w := by
  refine Machine.invariant (I := Ordered lib) ?_ ?_ ?_ ?_ reach
  · exact ⟨⟨[],.slnil,.nil⟩,fun i t d wrong => by cases wrong⟩
  · intro w c _ _ ih
    exact ⟨ih.sent,ih.inHand⟩
  · intro w i c o next reach _ found _ ih
    have turning := runTurning reach
    have kept : ∀ {es ds}, List.Forall₂ (Goes lib w) es ds →
        List.Forall₂ (Goes lib ((machine lib expired key).performed w i c o next)) es ds :=
      fun all => all.imp fun _ _ => goesPerformed
    by_cases sends : c = .turn ∧ isSend o = true
    · obtain ⟨rfl,send⟩ := sends
      obtain ⟨route,m,rfl⟩ : ∃ route m, o = .send route m := by cases o <;> first | contradiction | exact ⟨_,_,rfl⟩
      obtain ⟨config,addr,slot,rfl,did⟩ := turnNow reach found route m rfl
      have mine : turnOf (w.didsOf i) = some ⟨config,some (.msg m addr)⟩ := by rw [did]; rfl
      obtain ⟨front,ds,taken,before,all⟩ := ih.inHand i _ _ mine rfl (by rw [did]; simp [isSend])
      obtain ⟨a,inside,task,took⟩ := didsOfMember.mp (show ⟨.peersTake (lib.tryIntoV4 addr),slot⟩ ∈ w.didsOf i by rw [did]; simp)
      have goes : Goes lib ((machine lib expired key).performed w i .turn (.send (routeFor addr slot) m) next)
          ((machine lib expired key).happening w i .turn (.send (routeFor addr slot) m)) (.msg m addr) :=
        ⟨m,addr,slot,rfl,rfl,a,Machine.stillThere inside,task,Machine.olderPosition reach inside,took⟩
      refine ⟨⟨ds ++ [.msg m addr],?_,?_⟩,?_⟩
      · rw [takenPerformed,taken]
        exact (before.append (List.Sublist.refl _)).trans (List.sublist_append_left _ _)
      · rw [pushesPerformed,if_pos ⟨rfl,rfl⟩]
        exact List.rel_append (kept all) (.cons goes .nil)
      · intro j t d theirs data unsent
        by_cases same : i = j
        · subst same
          have sent := unsent ⟨.send (routeFor addr slot) m,()⟩ (by rw [Machine.didsPerformed,if_pos rfl]; simp [machine])
          contradiction
        · rw [turnPerformed,if_neg same] at theirs
          exact absurd (turning.alone i j _ _ mine theirs) same
    · have pushed : pushes ((machine lib expired key).performed w i c o next) = pushes w := by
        rw [pushesPerformed,if_neg sends,List.append_nil]
      obtain ⟨ds,front,all⟩ := ih.sent
      by_cases take : o = .dequeue
      · subst take
        refine ⟨⟨ds,?_,by rw [pushed]; exact kept all⟩,?_⟩
        · rw [takenPerformed]
          exact front.trans (List.sublist_append_left _ _)
        · intro j t d theirs data _
          rw [turnPerformed] at theirs
          obtain ⟨t',mine⟩ := Option.isSome_iff_exists.mp (dueNow reach found : (turnOf (w.didsOf i)).isSome)
          split at theirs
          · rename_i same
            subst same
            rw [mine] at theirs
            cases theirs
            refine ⟨takenSoFar w,ds,?_,front,by rw [pushed]; exact kept all⟩
            rw [takenPerformed]
            exact congrArg (takenSoFar w ++ ·) (by rw [show (exec lib expired .dequeue w.shared).1 = some d from data]; rfl)
          · rename_i apart
            exact absurd (turning.alone i j _ _ mine theirs) apart
      · have taken : takenSoFar ((machine lib expired key).performed w i c o next) = takenSoFar w := by
          rw [takenPerformed]
          cases o <;> first | contradiction | exact List.append_nil _
        refine ⟨⟨ds,by rw [taken]; exact front,by rw [pushed]; exact kept all⟩,?_⟩
        intro j t d theirs data unsent
        have before : ∃ t', turnOf (w.didsOf j) = some t' ∧ t'.data = some d := by
          rw [turnPerformed] at theirs
          split at theirs
          · exact turnData take theirs data
          · exact ⟨t,theirs,data⟩
        obtain ⟨t',mine,held⟩ := before
        have quiet : ∀ x ∈ w.didsOf j, isSend x.1 = false := by
          intro x member
          refine unsent x ?_
          rw [Machine.didsPerformed]
          exact List.mem_append_left _ member
        obtain ⟨front',ds',taken',sub,all'⟩ := ih.inHand j t' d mine held quiet
        exact ⟨front',ds',by rw [taken,taken'],sub,by rw [pushed]; exact kept all'⟩
  · intro w e _ _ ih
    cases e <;> exact ⟨ih.sent,ih.inHand⟩

theorem pushesServed (reach : (machine lib expired key).Reach ok s w) {e} (member : e ∈ w.log) {m addr}
    (turn : e.call = .turn) (took : e.did = ⟨.dequeue,some (.msg m addr)⟩) (ended : w.Answered e.task .turn ()) :
    (∃ p ∈ pushes w, p.task = e.task ∧ Goes lib w p (.msg m addr)) ∨
      ∃ a ∈ w.log, a.task = e.task ∧ a.did = ⟨.peersTake (lib.tryIntoV4 addr),some .closed⟩ := by
  have path : Path (program lib key .turn) (w.didsOf e.task) (.ret ()) := by
    obtain ⟨t,found,call,returned⟩ := ended
    have path := Machine.taskPath reach found
    rwa [returned,call] at path
  have all := endsOnPath (alongEnds turnAlong) path m addr (didsOfMember.mpr ⟨e,member,rfl,took⟩)
  obtain ⟨slot,second,rfl | third⟩ := all
  · obtain ⟨a,inside,task,did⟩ := didsOfMember.mp (List.mem_of_getElem? second)
    exact .inr ⟨a,inside,task,did⟩
  · obtain ⟨a,inside,p,inside',task,task',did,did',less⟩ := Machine.didsInOrder reach second third (by omega)
    obtain ⟨t,found,call⟩ := Machine.eventTask reach p inside'
    obtain ⟨u,found',call'⟩ := Machine.eventTask reach e member
    have same : p.call = .turn := by
      rw [task',found'] at found
      cases found
      exact call.symm.trans (call'.trans turn)
    refine .inl ⟨p,List.mem_filter.mpr ⟨inside',by simp [same,did',isSend]⟩,task',m,addr,slot,rfl,?_,a,inside,?_,less,did⟩
    · rw [did']
    · rw [task,task']

/- What is queued for a peer is sent in the order it was queued, at most once, to its own address, and
is dropped only while the peer's sink is out. -/
theorem pushedInOrder (empty : s.queue = []) (reach : (machine lib expired key).Reach ok s w) : Pushed lib w := by
  refine ⟨?_,(runOrdered reach).sent,fun e member m addr turn took ended => pushesServed reach member turn took ended⟩
  have all := HistoryFolds.inOrder queueFifo reach
  rwa [empty,List.nil_append] at all

end Runs

/- Relays are forced on the console, a controller asks twice for a peer, and the main loop takes the
first two of the three entries. -/
def twiceAsked : List (Act Call Env) := RelayForcing.houseActs true ++ advances 3 1 ++
  [.start (.tcp (RelayForcing.houseConn true) [1] (calm AccountCalls.mintedC))] ++ advances 4 9 ++
    [.start .turn] ++ advances 5 4 ++ [.start .turn] ++ advances 6 5

theorem firstPushed : ∃ w, RelayForcing.houseMachine.Reach (fun _ _ => True) RelayForcing.unregistered w ∧
    (takenSoFar w).length = 2 ∧ w.shared.queue.length = 1 ∧ (pushes w).length = 1 ∧
    Pushed (plainLibrary RelayForcing.askedOrRegistered) w := by
  obtain ⟨w,reach,shown⟩ := Machine.reachWith (fun _ _ => True) (fun _ _ => true) (fun _ _ _ => trivial) twiceAsked
    (m := RelayForcing.houseMachine) (s := RelayForcing.unregistered)
    (P := fun w => decide ((takenSoFar w).length = 2) && decide (w.shared.queue.length = 1) && decide ((pushes w).length = 1))
    (by decide +kernel)
  simp only [Bool.and_eq_true,decide_eq_true_eq] at shown
  exact ⟨w,reach,shown.1.1,shown.1.2,shown.2,pushedInOrder rfl reach⟩

end OpenuuServer.PushQueue
