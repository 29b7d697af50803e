import OpenuuServer.RendezvousService

/-! The configuration of hbbs over time. The main loop works on the configuration itself, one
turn at a time; a connection works on the clone that was made when it was accepted, and a check
of the relay servers on the list it was started with. -/
namespace OpenuuServer.RendezvousConfig
open AtomicProgram RendezvousMessages RendezvousServer RendezvousPrograms RendezvousService
open PeerRegistry (Bytes SocketAddr LockPeer Registry Outage)
open AccountStore (Store)

/- What a turn of the main loop has in hand: the configuration it works on and what it took from
the queue. -/
structure Turn where
  config : Config
  data : Option Data

def turnAfter : Did Op Resp → Option Turn → Option Turn
  | ⟨.loopTurn,config⟩,_ => some ⟨config,none⟩
  | ⟨.loopDone,_⟩,_ => none
  | ⟨.setConfig config,_⟩,turn => turn.map fun t => { t with config := config }
  | ⟨.dequeue,data⟩,turn => turn.map fun t => { t with data := data }
  | _,turn => turn

def turnOf (done : List (Did Op Resp)) : Option Turn := done.foldl (fun turn d => turnAfter d turn) none

@[simp] theorem turnLast (done : List (Did Op Resp)) (d : Did Op Resp) :
    turnOf (done ++ [d]) = turnAfter d (turnOf done) := by simp [turnOf]

/- How the configuration that a turn leaves behind comes from the one it found. -/
structure Follows (t : Turn) (config : Config) : Prop where
  inner : config.inner = { t.config.inner with serial := config.inner.serial }
  relays : (∃ list, t.data = some (.relayServers0 list)) ∧ config.relayServers = config.relayServers0 ∨
    config.relayServers0 = t.config.relayServers0 ∧
      (config.relayServers = t.config.relayServers ∨ t.data = some (.relayServers config.relayServers))

/- The operations that have to do with the configuration, each with what came before it. -/
def Due (done : List (Did Op Resp)) : Op → Prop
  | .loopDone | .dequeue => (turnOf done).isSome
  | .setConfig config => ∃ t, turnOf done = some t ∧ Follows t config
  | .connect _ config => ⟨.loopTurn,config⟩ ∈ done
  | .enqueue (.relayServers rs) => ∃ before t, done = before ++ [⟨.loopDone,()⟩] ∧ turnOf before = some t ∧
      ∀ x ∈ rs, x ∈ t.config.relayServers0
  | _ => True

def ordinary : Op → Bool
  | .loopTurn | .loopDone | .setConfig _ | .dequeue | .connect _ _ | .enqueue (.relayServers _) => false
  | _ => true

theorem ordinaryDue {done : List (Did Op Resp)} {o : Op} (free : ordinary o = true) : Due done o := by
  unfold ordinary at free
  split at free <;> first | contradiction | skip
  unfold Due
  split <;> first | trivial | simp_all

theorem ordinaryTurn {o : Op} (free : ordinary o = true) (r : Resp o) (turn : Option Turn) : turnAfter ⟨o,r⟩ turn = turn := by
  cases o with
  | loopTurn | loopDone | setConfig | dequeue => contradiction
  | _ => rfl

section Parts
variable {lib : Library} {config : Config} {key : String} {conn : Conn} {draws : Draws} {α : Type}

/- A part of a program that leaves the turn as it is. -/
def Within (turn : Option Turn) (p : Prog Op Resp α) : Prop :=
  ∀ done, turnOf done = turn → p.Along Due (fun done _ => turnOf done = turn) done

theorem ordinaryWithin {p : Prog Op Resp α} (all : p.Every fun o => ordinary o = true) (turn : Option Turn) : Within turn p := by
  induction p with
  | ret value => exact fun done same => same
  | op o next ih =>
    intro done same
    refine ⟨ordinaryDue all.1,fun r => ih r (all.2 r) _ ?_⟩
    rw [turnLast,ordinaryTurn all.1,same]

theorem ordinaryInner {o : Op} (free : RendezvousPrograms.inner o = true) : ordinary o = true := by
  unfold RendezvousPrograms.inner at free
  split at free <;> first | contradiction | rfl

theorem ordinaryOuter {o : Op} (free : outer o = true) : ordinary o = true := by
  unfold outer at free
  split at free <;> first | contradiction | rfl

/- Handling a message on a connection has nothing to do with the configuration of the loop. -/
theorem ordinaryServe (frame : Bytes) (link : Link) : (serve lib key conn frame draws link).Every fun o => ordinary o = true :=
  everyServe (fun _ => ordinaryInner) (fun _ => ordinaryOuter) frame link

theorem ordinaryCheckCmd (cmd : Command) : (checkCmd config cmd).Every fun o => ordinary o = true := by
  cases cmd with
  | relayServers rs => exact everyAct rfl
  | alwaysUseRelay arg => exact ⟨rfl,fun _ => everyAct rfl⟩
  | testGeo => exact everyBind (everyGetRelayServer rfl) fun _ => trivial
  | display => trivial
  | _ => exact everyAct rfl

theorem udpWithin (addr : SocketAddr) (bytes : Bytes) {done : List (Did Op Resp)} (turn : turnOf done = some ⟨config,none⟩) :
    (handleUdp lib config addr bytes draws).Along Due (fun done' _ => (turnOf done').isSome) done := by
  have settled : ∀ {p : Prog Op Resp Unit}, (p.Every fun o => ordinary o = true) →
      p.Along Due (fun done' _ => (turnOf done').isSome) done := by
    intro p all
    refine alongMono (fun done' _ same => ?_) (ordinaryWithin all _ done turn)
    rw [same]
    rfl
  have still : (turnOf done).isSome := by rw [turn]; rfl
  unfold handleUdp
  split
  · refine settled (everyIte.mpr ⟨fun _ => everyBind (everyRegistry (fun _ => rfl) _) fun _ => ⟨rfl,fun _ => ?_⟩,
      fun _ => trivial⟩)
    exact everyIte.mpr ⟨fun _ => everyAct rfl,fun _ => trivial⟩
  · exact settled (everyIte.mpr ⟨fun _ => trivial,fun _ => everyBind (everyRegistry (fun _ => rfl) _) fun _ => everyAct rfl⟩)
  · exact settled (everyAct rfl)
  · refine alongIte.mpr ⟨fun _ => ⟨⟨_,turn,⟨rfl,.inr ⟨rfl,.inl rfl⟩⟩⟩,fun _ => ?_⟩,fun _ => still⟩
    rw [alongRet,turnLast,turn]
    rfl
  · exact settled (everyIte.mpr ⟨fun _ => everyAct rfl,fun _ => trivial⟩)
  · exact still

/- A turn of the main loop: what it does in its body, it does on the configuration it found. -/
theorem turningAlong {body : Config → Prog Op Resp α} {Q : List (Did Op Resp) → α → Prop}
    (all : ∀ config done, turnOf done = some ⟨config,none⟩ → ⟨.loopTurn,config⟩ ∈ done →
      (body config).Along Due (fun done' value => (turnOf done').isSome ∧ Q (done' ++ [⟨.loopDone,()⟩]) value) done)
    (done : List (Did Op Resp)) : (turning body).Along Due Q done := by
  unfold turning act
  simp only [performIs,bindOp,bindRet]
  refine ⟨trivial,fun config => alongBind.mpr (alongMono (fun done' value kept => ?_) (all config _ (turnLast _ _) ?_))⟩
  · exact ⟨kept.1,fun _ => kept.2⟩
  · exact List.mem_append_right _ (.head _)

theorem turnWithin {p : Prog Op Resp α} (all : p.Every fun o => ordinary o = true) (done : List (Did Op Resp)) :
    p.EveryAfter Due done := everyAfterOfEvery (fun _ _ => ordinaryDue) all done

/- What a task that has just left its turn knows of the configuration it found there. -/
structure Cloned (done : List (Did Op Resp)) (config : Config) : Prop where
  left : ∃ before, done = before ++ [⟨.loopDone,()⟩] ∧ (turnOf before).map Turn.config = some config
  found : ⟨.loopTurn,config⟩ ∈ done

theorem cloned (done : List (Did Op Resp)) : (turning (pure : Config → Prog Op Resp Config)).Along Due Cloned done := by
  refine turningAlong ?_ done
  intro config done' turn member
  refine ⟨by rw [turn]; rfl,⟨done',rfl,?_⟩,List.mem_append_left _ member⟩
  rw [turn]
  rfl

theorem afterClone {k : Config → Prog Op Resp α} (all : ∀ done config, Cloned done config → (k config).EveryAfter Due done)
    (done : List (Did Op Resp)) : (turning pure >>= k).EveryAfter Due done :=
  everyAfterBindEnds (alongEvery (cloned done)) (endsMono (fun _ _ => all _ _) (alongEnds (cloned done)))

theorem programDue (c : Call) : (program lib key c).EveryAfter Due [] := by
  unfold program
  cases c with
  | account c =>
    have rest : (account (AccountCalls.program lib.prim c) >>= fun _ => (.ret () : Prog Op Resp Unit)).Every
        fun o => ordinary o = true := everyBind (everyAccount (fun _ => rfl) _) fun _ => trivial
    exact turnWithin rest _
  | accept conn secret publicKey =>
    refine afterClone ?_ _
    intro done config clone
    refine ⟨clone.found,fun _ => turnWithin ?_ _⟩
    have rest : (act (.served conn)).Every fun o => ordinary o = true := everyAct rfl
    dsimp only
    refine everyIte.mpr ⟨fun _ => ?_,fun _ => rest⟩
    cases config.inner.sk with
    | none => exact rest
    | some sk => exact ⟨rfl,fun _ => ⟨rfl,fun _ => rest⟩⟩
  | tcp conn frame draws =>
    refine turnWithin ?_ _
    refine ⟨rfl,fun link => ?_⟩
    cases (link : Option Link) with
    | none => trivial
    | some link => exact ordinaryServe _ _
  | close conn =>
    have rest : (act (.receive conn none) >>= fun _ => closing lib conn).Every fun o => ordinary o = true :=
      ⟨rfl,fun _ => everyClosing rfl rfl rfl rfl⟩
    exact turnWithin rest _
  | udp addr bytes draws =>
    refine alongEvery (Q := fun _ _ => True) (turningAlong ?_ _)
    intro config done turn _
    exact alongMono (fun _ _ still => ⟨still,trivial⟩) (udpWithin addr bytes turn)
  | turn =>
    refine alongEvery (Q := fun _ _ => True) (turningAlong ?_ _)
    intro config done turn _
    have still : (turnOf done).isSome := by rw [turn]; rfl
    refine ⟨still,fun data => ?_⟩
    have now : turnOf (done ++ [⟨.dequeue,data⟩]) = some ⟨config,data⟩ := by rw [turnLast,turn]; rfl
    generalize done ++ [⟨.dequeue,data⟩] = later at now
    have replaced : ∀ config', Follows ⟨config,data⟩ config' → (act (.setConfig config')).Along Due
        (fun done' _ => (turnOf done').isSome ∧ True) later := by
      refine fun config' follows => ⟨⟨_,now,follows⟩,fun _ => ⟨?_,trivial⟩⟩
      rw [turnLast,now]
      rfl
    cases (data : Option Data) with
    | none => exact ⟨by rw [now]; rfl,trivial⟩
    | some data =>
      cases data with
      | msg m addr =>
        have sends : (deliver lib m addr).Every fun o => ordinary o = true :=
          everyDeliver (fun _ => rfl) (fun _ => rfl) fun _ _ => rfl
        refine alongMono (fun done' _ same => ⟨?_,trivial⟩) (ordinaryWithin sends _ later now)
        rw [same]
        rfl
      | relayServers0 rs => exact replaced _ ⟨rfl,.inl ⟨⟨rs,rfl⟩,rfl⟩⟩
      | relayServers rs => exact replaced _ ⟨rfl,.inr ⟨rfl,.inr rfl⟩⟩
  | nat addr bytes =>
    refine afterClone ?_ _
    intro done config clone
    refine turnWithin ?_ _
    refine everyIte.mpr ⟨fun _ => ?_,fun _ => trivial⟩
    split
    · exact everyAct rfl
    · exact everyBind (everyOnlineList (fun _ => rfl) (fun _ => rfl) _) fun _ => everyAct rfl
    · trivial
  | console addr cmd =>
    refine afterClone ?_ _
    intro done config clone
    refine turnWithin ?_ _
    exact everyIte.mpr ⟨fun _ => ordinaryCheckCmd cmd,fun _ => trivial⟩
  | relayCheck reachable =>
    refine afterClone ?_ _
    intro done config clone
    refine everyAfterIte.mpr ⟨fun _ => ?_,fun _ => trivial⟩
    refine everyAfterIte.mpr ⟨fun _ => ⟨?_,fun _ => trivial⟩,fun _ => trivial⟩
    obtain ⟨before,rfl,mine⟩ := clone.left
    obtain ⟨t,turn,rfl⟩ := Option.map_eq_some_iff.mp mine
    exact ⟨before,t,rfl,turn,fun x member => (List.mem_bagInter.mp member).2⟩
  | peerTransport =>
    refine alongEvery (Q := fun _ _ => True) (turningAlong ?_ _)
    intro config done turn _
    have silent : logPeerTransport.Every fun o => ordinary o = true := everyPeerTransport rfl (fun _ => rfl) rfl fun _ _ _ => rfl
    refine alongMono (fun done' _ same => ⟨?_,trivial⟩) (ordinaryWithin silent _ done turn)
    rw [same]
    rfl
  | testHbbs addr => exact turnWithin (everyAct rfl) _

end Parts

def configAfter (config : Config) : Op → Config
  | .setConfig config' => config'
  | _ => config

def loopingAfter (looping : Bool) : Op → Bool
  | .loopTurn => true
  | .loopDone => false
  | _ => looping

def queueAfter (queue : List Data) : Op → List Data
  | .enqueue d => queue ++ [d]
  | .dequeue => queue.tail
  | _ => queue

section Runs
variable {lib : Library} {expired : Nat → Nat} {key : String}
variable {ok : World → Act Call Env → Prop} {s : Server} {w : World}

variable (lib expired) in
theorem execLoop (o : Op) (s : Server) : (exec lib expired o s).2.config = configAfter s.config o ∧
    (exec lib expired o s).2.looping = loopingAfter s.looping o ∧
    (exec lib expired o s).2.queue = queueAfter s.queue o := by
  have relinked : ∀ conn f, (s.relink conn f).config = s.config ∧ (s.relink conn f).looping = s.looping ∧
      (s.relink conn f).queue = s.queue := by
    intro conn f
    unfold Server.relink
    split <;> exact ⟨rfl,rfl,rfl⟩
  cases o with
  | receive conn frame => exact relinked _ _
  | offerKey conn secret => exact relinked _ _
  | secure conn key => exact relinked _ _
  | takeSink conn => exact relinked _ _
  | peersTake addr => simp only [exec]; split <;> exact ⟨rfl,rfl,rfl⟩
  | peersPutBack addr sink => simp only [exec]; split <;> exact ⟨rfl,rfl,rfl⟩
  | recordPunch fromIp toIp toId => simp only [exec]; split <;> exact ⟨rfl,rfl,rfl⟩
  | _ => exact ⟨rfl,rfl,rfl⟩

theorem dueNow (reach : (machine lib expired key).Reach ok s w) {i c o} {next : Resp o → Prog Op Resp Unit}
    (found : w.tasks[i]? = some ⟨c,.op o next,true⟩) : Due (w.didsOf i) o := by
  have later := everyAfterOnPath (Machine.taskPath reach found) (programDue c)
  exact later.1

/- A task in its turn works on the configuration of the loop, and no other task is in one. -/
structure Turning (w : World) : Prop where
  current : ∀ i t, turnOf (w.didsOf i) = some t → w.shared.looping = true ∧ w.shared.config = t.config
  alone : ∀ i j t u, turnOf (w.didsOf i) = some t → turnOf (w.didsOf j) = some u → i = j

theorem turnPerformed {i c o} {next : Resp o → Prog Op Resp Unit} (j : Nat) :
    turnOf (((machine lib expired key).performed w i c o next).didsOf j) =
      if i = j then turnAfter ⟨o,(exec lib expired o w.shared).1⟩ (turnOf (w.didsOf j)) else turnOf (w.didsOf j) := by
  rw [Machine.didsPerformed]
  split
  · exact turnLast _ _
  · rw [List.append_nil]

/- The task that changes something about its turn is the only one in a turn afterwards. -/
theorem turningAlone {i c o} {next : Resp o → Prog Op Resp Unit} (others : ∀ j, i ≠ j → turnOf (w.didsOf j) = none)
    (mine : ∀ t, turnAfter ⟨o,(exec lib expired o w.shared).1⟩ (turnOf (w.didsOf i)) = some t →
      loopingAfter w.shared.looping o = true ∧ configAfter w.shared.config o = t.config) :
    Turning ((machine lib expired key).performed w i c o next) := by
  have only : ∀ j t, turnOf (((machine lib expired key).performed w i c o next).didsOf j) = some t → i = j := by
    intro j t found
    rw [turnPerformed] at found
    split at found
    · assumption
    · rename_i apart
      rw [others j apart] at found
      cases found
  obtain ⟨config,looping,-⟩ := execLoop lib expired o w.shared
  refine ⟨fun j t found => ?_,fun j k t u first second => (only j t first).symm.trans (only k u second)⟩
  have same := only j t found
  subst same
  rw [turnPerformed,if_pos rfl] at found
  obtain ⟨yes,new⟩ := mine t found
  exact ⟨looping.trans yes,config.trans new⟩

theorem turningKept {i c o} {next : Resp o → Prog Op Resp Unit} (turning : Turning w)
    (still : ∀ r turn, turnAfter ⟨o,r⟩ turn = turn) (config : configAfter w.shared.config o = w.shared.config)
    (looping : loopingAfter w.shared.looping o = w.shared.looping) :
    Turning ((machine lib expired key).performed w i c o next) := by
  have same : ∀ j, turnOf (((machine lib expired key).performed w i c o next).didsOf j) = turnOf (w.didsOf j) := by
    intro j
    rw [turnPerformed,still]
    split <;> rfl
  obtain ⟨config',looping',-⟩ := execLoop lib expired o w.shared
  refine ⟨fun j t found => ?_,fun j k t u first second => ?_⟩
  · rw [same] at found
    obtain ⟨yes,mine⟩ := turning.current j t found
    exact ⟨(looping'.trans looping).trans yes,(config'.trans config).trans mine⟩
  · rw [same] at first second
    exact turning.alone j k t u first second

theorem runTurning (reach : (machine lib expired key).Reach ok s w) : Turning w := by
  refine Machine.invariant (I := Turning) ?_ ?_ ?_ ?_ reach
  · refine ⟨fun i t mine => ?_,fun i j t u mine => ?_⟩ <;> cases mine
  · intro w c _ _ ih
    exact ⟨ih.current,ih.alone⟩
  · intro w i c o next reach _ found ready ih
    have due := dueNow reach found
    have others : ∀ t, turnOf (w.didsOf i) = some t → ∀ j, i ≠ j → turnOf (w.didsOf j) = none := by
      intro t mine j apart
      rw [Option.eq_none_iff_forall_not_mem]
      exact fun u theirs => apart (ih.alone i j t u mine theirs)
    cases o with
    | loopTurn =>
      have idle : ∀ j, turnOf (w.didsOf j) = none := by
        intro j
        rw [Option.eq_none_iff_forall_not_mem]
        intro t theirs
        simp [machine,RendezvousServer.ready,(ih.current j t theirs).1] at ready
      refine turningAlone (fun j _ => idle j) fun t mine => ?_
      cases mine
      exact ⟨rfl,rfl⟩
    | loopDone =>
      obtain ⟨t,mine⟩ := Option.isSome_iff_exists.mp due
      exact turningAlone (others t mine) fun u wrong => by cases wrong
    | dequeue =>
      obtain ⟨t,mine⟩ := Option.isSome_iff_exists.mp due
      refine turningAlone (others t mine) fun u new => ?_
      rw [mine] at new
      cases new
      exact ih.current i t mine
    | setConfig config =>
      obtain ⟨t,mine,-⟩ := due
      refine turningAlone (others t mine) fun u new => ?_
      rw [mine] at new
      cases new
      exact ⟨(ih.current i t mine).1,rfl⟩
    | _ => exact turningKept ih (fun _ _ => rfl) rfl rfl
  · intro w e _ _ ih
    cases e <;> exact ⟨ih.current,ih.alone⟩

/- What is still to be reported of the relay servers: by a check that has finished, or by an entry
of the queue. -/
def Outstanding (w : World) (rs : List String) : Prop :=
  .relayServers rs ∈ w.shared.queue ∨ ∃ i, w.next i = some (.enqueue (.relayServers rs))

structure Listed (w : World) : Prop where
  relays : ∀ x ∈ w.shared.config.relayServers, x ∈ w.shared.config.relayServers0
  reported : ∀ rs, Outstanding w rs → ∀ x ∈ rs, x ∈ w.shared.config.relayServers0
  taken : ∀ i t rs, turnOf (w.didsOf i) = some t → t.data = some (.relayServers rs) → ∀ x ∈ rs, x ∈ t.config.relayServers0

/- The serial, the rendezvous servers and the relay servers are the same. -/
def Same (c c' : Config) : Prop :=
  c'.inner.serial = c.inner.serial ∧ c'.rendezvousServers = c.rendezvousServers ∧ c'.relayServers = c.relayServers

/- The same but for the list that the checks work on. -/
structure Alike (c c' : Config) : Prop where
  inner : c'.inner = c.inner
  relays : c'.relayServers = c.relayServers
  rendezvous : c'.rendezvousServers = c.rendezvousServers

instance (c c' : Config) : Decidable (Same c c') := inferInstanceAs (Decidable (_ ∧ _ ∧ _))

/- The operation leaves other values behind. -/
def updates (config : Config) : Op → Bool
  | .setConfig config' => decide (¬ Same config config')
  | _ => false

def opens (conn : Conn) : Op → Bool
  | .connect conn' _ => conn' = conn
  | _ => false

/- The turn in which the connection was accepted. -/
def Accepts (w : World) (conn : Conn) (e : Event Op Resp Call Server) : Prop :=
  e.did.1 = .loopTurn ∧ ∃ e' ∈ w.log, e'.task = e.task ∧ opens conn e'.did.1 = true

/- A message is taken from a connection only while nothing was updated since it was accepted. -/
def Fresh (w : World) : Act Call Env → Prop
  | .advance i => match w.next i with
    | some (.receive conn (some _)) => ∀ e ∈ w.log, Accepts w conn e →
      ∀ a ∈ w.log, e.pos < a.pos → updates a.before.config a.did.1 = false
    | _ => True
  | _ => True

theorem linkFrom {conn : Conn} {l : Option Link} {o : Op} {link : Link} (found : linkAfter conn l o = some link) :
    o = .connect conn link.config ∨ ∃ link', l = some link' ∧ link'.config = link.config := by
  have mapped : ∀ {conn' : Conn} {f : Link → Link}, (if conn = conn' then l.map f else l) = some link →
      (∀ link, (f link).config = link.config) → ∃ link', l = some link' ∧ link'.config = link.config := by
    intro conn' f found same
    split at found
    · obtain ⟨link',there,rfl⟩ := Option.map_eq_some_iff.mp found
      exact ⟨link',there,(same link').symm⟩
    · exact ⟨link,found,rfl⟩
  cases o with
  | connect conn' config =>
    simp only [linkAfter] at found
    split at found
    · rename_i same
      cases found
      exact .inl (by rw [same])
    · exact .inr ⟨link,found,rfl⟩
  | disconnect conn' =>
    simp only [linkAfter] at found
    split at found
    · cases found
    · exact .inr ⟨link,found,rfl⟩
  | receive conn' frame => exact .inr (mapped found fun _ => rfl)
  | offerKey conn' secret => exact .inr (mapped found fun _ => rfl)
  | secure conn' key => exact .inr (mapped found fun _ => rfl)
  | takeSink conn' => exact .inr (mapped found fun _ => rfl)
  | _ => exact .inr ⟨link,found,rfl⟩

/- A connection works on a configuration it was opened with. -/
theorem runLinks (reach : (machine lib expired key).Reach ok s w) (none : s.links = ∅) :
    ∀ conn link, w.shared.links.lookup conn = some link → ∃ e ∈ w.log, e.did.1 = .connect conn link.config := by
  refine Machine.invariant (I := fun w => ∀ conn link, w.shared.links.lookup conn = some link →
    ∃ e ∈ w.log, e.did.1 = .connect conn link.config) ?_ ?_ ?_ ?_ reach
  · intro conn link found
    rw [Machine.initial,none] at found
    cases found
  · intro w c _ _ ih
    exact ih
  · intro w i c o next _ _ _ _ ih conn link found
    have old : ∀ link', w.shared.links.lookup conn = some link' → link'.config = link.config →
        ∃ e ∈ ((machine lib expired key).performed w i c o next).log, e.did.1 = .connect conn link.config := by
      intro link' there same
      obtain ⟨e,inside,did⟩ := ih conn link' there
      exact ⟨e,Machine.stillThere inside,by rw [did,same]⟩
    change (exec lib expired o w.shared).2.links.lookup conn = some link at found
    rw [execLink] at found
    rcases linkFrom found with rfl | ⟨link',there,same⟩
    · exact ⟨_,Machine.happened,rfl⟩
    · exact old link' there same
  · intro w e _ _ ih
    cases e <;> exact ih

/- Without an update since a turn, the configuration is what that turn found, but for the list the
checks work on. -/
theorem configSince (reach : (machine lib expired key).Reach ok s w) : ∀ e ∈ w.log, e.did.1 = .loopTurn →
    (∀ a ∈ w.log, e.pos < a.pos → updates a.before.config a.did.1 = false) →
    Alike e.before.config w.shared.config := by
  refine Machine.invariant (I := fun w => ∀ e ∈ w.log, e.did.1 = .loopTurn →
    (∀ a ∈ w.log, e.pos < a.pos → updates a.before.config a.did.1 = false) →
    Alike e.before.config w.shared.config) ?_ ?_ ?_ ?_ reach
  · intro e member
    cases member
  · intro w c _ _ ih
    exact ih
  · intro w i c o next before _ found _ ih e member turn still
    have due := dueNow before found
    have turningBefore := runTurning before
    have now : ((machine lib expired key).performed w i c o next).shared.config = configAfter w.shared.config o :=
      (execLoop lib expired o w.shared).1
    rw [now]
    rcases Machine.memPerformed.mp member with old | rfl
    · have same := ih e old turn fun a inside => still a (Machine.stillThere inside)
      cases o with
      | setConfig config =>
        have unchanged : updates w.shared.config (.setConfig config) = false :=
          still _ Machine.happened (Machine.olderPosition before old)
        obtain ⟨t,mine,follows⟩ := due
        have inner := follows.inner
        rw [← (turningBefore.current i t mine).2] at inner
        obtain ⟨serial,rendezvous,relays⟩ := Decidable.not_not.mp (of_decide_eq_false unchanged)
        rw [serial] at inner
        exact ⟨inner.trans same.inner,relays.trans same.relays,rendezvous.trans same.rendezvous⟩
      | _ => exact same
    · cases o with
      | loopTurn => exact ⟨rfl,rfl,rfl⟩
      | _ => cases turn
  · intro w e _ _ ih
    cases e <;> exact ih

/- The list that the checks work on is none of a handler's business. -/
theorem handleTcpAlike {config config' : Config} (alike : Alike config config') (conn : Conn) (bytes : Bytes) (draws : Draws) :
    handleTcp lib config key conn bytes draws = handleTcp lib config' key conn bytes draws := by
  obtain ⟨inner,relays,list,rendezvous⟩ := config
  obtain ⟨inner',relays',list',rendezvous'⟩ := config'
  obtain ⟨rfl,rfl,rfl⟩ := alike
  unfold handleTcp
  rfl

theorem acceptedAs (reach : (machine lib expired key).Reach ok s w) (none : s.links = ∅) {conn link}
    (there : w.shared.links.lookup conn = some link) :
    ∃ a ∈ w.log, Accepts w conn a ∧ a.before.config = link.config := by
  obtain ⟨e,inside,opened⟩ := runLinks reach none conn link there
  obtain ⟨done,due,past⟩ := Machine.guarded (P := fun _ _ => Due) (fun _ c => programDue c) reach inside
  rw [opened] at due
  obtain ⟨a,member,task,_,did⟩ := past _ due
  refine ⟨a,member,⟨by rw [did],e,inside,task.symm,by simp [opened,opens]⟩,?_⟩
  exact (Machine.responseIs reach member did).symm

/- As long as a message is taken from a connection only while nothing was updated since it was
accepted, it is answered from the configuration of the loop, as every datagram is. -/
theorem answeredFromUpdated {accounts : Store} {registry : Registry} {config : Config}
    (reach : (machine lib expired key).Reach Fresh (.init accounts registry config) w) :
    (∀ e ∈ w.log, ∀ conn frame link, e.did.1 = .receive conn (some frame) → e.before.links.lookup conn = some link →
      Same link.config e.before.config ∧ configUpdate link.config = configUpdate e.before.config ∧
        ∀ bytes draws, handleTcp lib link.config key conn bytes draws = handleTcp lib e.before.config key conn bytes draws) ∧
    ∀ e ∈ w.log, ∀ t, turnOf ((w.past e).map Event.did) = some t → t.config = e.before.config := by
  refine ⟨fun e member conn frame link taken there => ?_,fun e member t turn => ?_⟩
  · obtain ⟨v,reached,meets,shared,_,_,_,next,found⟩ := Machine.moment reach member
    rw [← shared] at there ⊢
    obtain ⟨a,inside,accepts,same⟩ := acceptedAs reached rfl there
    have fresh := meets
    rw [Fresh,nextIs found,taken] at fresh
    have since := configSince reached a inside accepts.1 (fresh a inside accepts)
    rw [same] at since
    have serial := congrArg Inner.serial since.inner
    refine ⟨⟨serial,since.rendezvous,since.relays⟩,?_,fun bytes draws => handleTcpAlike since _ _ _⟩
    rw [configUpdate,configUpdate,serial,since.rendezvous]
  · obtain ⟨v,reached,shared,past,_⟩ := Machine.momentPast reach member
    rw [← past] at turn
    rw [← shared]
    exact ((runTurning reached).current _ t turn).2.symm

end Runs

section Concrete

def reported : Op → Option (List String)
  | .enqueue (.relayServers rs) => some rs
  | _ => none

def outstanding (w : World) : List (List String) :=
  w.shared.queue.filterMap (fun d => reported (.enqueue d)) ++
    (List.range w.tasks.length).filterMap fun i => (w.next i).bind reported

def covers (w : World) : Act Call Env → Bool
  | .advance i => match w.next i with
    | some (.setConfig config) => (outstanding w).all fun rs => rs.all (· ∈ config.relayServers0)
    | _ => true
  | _ => true

instance (w : World) (conn : Conn) (e : Event Op Resp Call Server) : Decidable (Accepts w conn e) :=
  inferInstanceAs (Decidable (_ ∧ _))

instance (w : World) : (a : Act Call Env) → Decidable (Fresh w a)
  | .advance i => by
    unfold Fresh
    dsimp only
    split <;> infer_instance
  | .start _ | .env _ => .isTrue trivial

def messageOf : Bytes → Option Message
  | [1] => some (.configureUpdate ⟨1,["b"]⟩)
  | [2] => some (.registerPeer ⟨"100000003",0⟩)
  | _ => none

def lists : Library := plainLibrary messageOf

def operator : SocketAddr := ⟨.v4 127 0 0 1,5⟩

def peerConn : Conn := ⟨0,⟨.v4 198 51 100 2,4000⟩,false⟩

def drawn : Draws := calm AccountCalls.mintedB

def configured (relays : String) : Server :=
  .init (.init 100) (.init bootInstant .empty) (oneServer.parseRelayServers lists relays)

/- What a task has written to clients. -/
def written (w : World) (i : Nat) : List Message :=
  (w.didsOf i).filterMap fun d => match d.1 with
    | .send _ m => some m
    | _ => none

/- The serial that the connection of the frame works on, and that of the loop. -/
def serials : Event Op Resp Call Server → Option (Int × Int)
  | ⟨_,_,_,before,⟨.receive conn (some _),_⟩⟩ =>
    (before.links.lookup conn).map fun link => (link.config.inner.serial,before.config.inner.serial)
  | _ => none

/- A connection is open when the servers are updated; then the same RegisterPeer comes on it and over UDP. -/
def registersAfterUpdate : List (Act Call Env) :=
  [.start (.accept peerConn [] [])] ++ advances 0 4 ++ [.start (.udp operator [1] drawn)] ++ advances 1 3 ++
    [.start (.tcp peerConn [2] drawn)] ++ advances 2 8 ++ [.start (.udp peerConn.addr [2] drawn)] ++ advances 3 5

theorem registrantMissesUpdate : ∃ w, (machine lists hourAgo "").Reach (fun _ _ => True) (configured "") w ∧
    w.log.filterMap serials = [(0,1)] ∧ written w 2 = [.registerPeerResponse true] ∧
    written w 3 = [.registerPeerResponse true,.configureUpdate ⟨1,["b"]⟩] := by
  obtain ⟨w,reach,shown⟩ := Machine.reachWith (m := machine lists hourAgo "") (s := configured "") (fun _ _ => True)
    (fun _ _ => true) (fun _ _ _ => trivial) registersAfterUpdate
    (P := fun w => decide (w.log.filterMap serials = [(0,1)] ∧ written w 2 = [.registerPeerResponse true] ∧
      written w 3 = [.registerPeerResponse true,.configureUpdate ⟨1,["b"]⟩])) (by decide +kernel)
  exact ⟨w,reach,of_decide_eq_true shown⟩

/- The servers are updated before the connection is accepted. -/
theorem registrantToldUpdate : ∃ w, (machine lists hourAgo "").Reach Fresh (configured "") w ∧
    w.log.filterMap serials = [(1,1)] ∧ written w 2 = [.registerPeerResponse true,.configureUpdate ⟨1,["b"]⟩] ∧
    (∀ e ∈ w.log, ∀ conn frame link, e.did.1 = .receive conn (some frame) → e.before.links.lookup conn = some link →
      Same link.config e.before.config ∧ configUpdate link.config = configUpdate e.before.config ∧
        ∀ bytes draws, handleTcp lists link.config "" conn bytes draws = handleTcp lists e.before.config "" conn bytes draws) ∧
    ∀ e ∈ w.log, ∀ t, turnOf ((w.past e).map Event.did) = some t → t.config = e.before.config := by
  obtain ⟨w,reach,shown⟩ := Machine.reachWith (m := machine lists hourAgo "") (s := configured "") Fresh
    (fun w a => decide (Fresh w a)) (fun _ _ => of_decide_eq_true)
    ([.start (.udp operator [1] drawn)] ++ advances 0 3 ++ [.start (.accept peerConn [] [])] ++ advances 1 4 ++
      [.start (.tcp peerConn [2] drawn)] ++ advances 2 11)
    (P := fun w => decide (w.log.filterMap serials = [(1,1)] ∧
      written w 2 = [.registerPeerResponse true,.configureUpdate ⟨1,["b"]⟩])) (by decide +kernel)
  obtain ⟨current,sent⟩ := of_decide_eq_true shown
  exact ⟨w,reach,current,sent,answeredFromUpdated reach⟩

end Concrete
end OpenuuServer.RendezvousConfig
