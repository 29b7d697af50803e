import OpenuuServer.DatagramTargets
import OpenuuServer.RendezvousCommands

/-! The configuration of hbbs as a history. It is replaced as a whole, by a datagram from this host, by
a list of relay servers from the console or by what a check of them found; none of these writes
over another, and the serial number only grows. -/
namespace OpenuuServer.ConfigHistory
open AtomicProgram HistoryFolds RendezvousMessages RendezvousServer RendezvousPrograms RendezvousConfig RendezvousCommands
open PeerRegistry (Bytes SocketAddr)

inductive Change where
  | update (cu : ConfigUpdate)
  | named (rs : String)
  | sampled (rs : List String)

def Change.apply (lib : Library) : Change → Config → Config
  | .update cu,config => { config with
      inner := { config.inner with serial := cu.serial }
      rendezvousServers := cu.rendezvousServers.filter fun x => !x.isEmpty && lib.validServer x }
  | .named rs,config => config.parseRelayServers lib rs
  | .sampled rs,config => { config with relayServers := rs }

def isSetting : Op → Bool
  | .setConfig _ => true
  | _ => false

def settings (w : World) : List Happening := w.log.filter fun e => isSetting e.did.1

section Programs
variable {lib : Library} {key : String} {config : Config} {draws : Draws}

/- How a turn that sets the configuration comes by the change. -/
def Sets (lib : Library) (c : Call) (t : Turn) (config : Config) : Change → Prop
  | .update cu => (∃ addr bytes draws, c = .udp addr bytes draws ∧ lib.parse bytes = some (.configureUpdate cu) ∧
    (lib.tryIntoV4 addr).ip.isLoopback = true) ∧ t.config.inner.serial < cu.serial ∧ config = (Change.update cu).apply lib t.config
  | .named rs => c = .turn ∧ t.data = some (.relayServers0 rs) ∧ config = t.config.parseRelayServers lib rs
  | .sampled rs => c = .turn ∧ t.data = some (.relayServers rs) ∧ config = { t.config with relayServers := rs }

def Guard (lib : Library) (c : Call) (done : List (Did Op Resp)) (o : Op) : Prop :=
  ∀ config, o = .setConfig config → ∃ t change, turnOf done = some t ∧ Sets lib c t config change

theorem guardBare {c : Call} {α : Type} {p : Prog Op Resp α} (all : p.Every fun o => ∀ config, o ≠ .setConfig config)
    (done : List (Did Op Resp)) : p.EveryAfter (Guard lib c) done :=
  everyAfterOfEvery (fun _ _ bare config same => absurd same (bare config)) all done

theorem guardTurning {c : Call} {body : Config → Prog Op Resp Unit}
    (all : ∀ config done, turnOf done = some ⟨config,none⟩ → (body config).EveryAfter (Guard lib c) done) :
    (turning body).EveryAfter (Guard lib c) [] := by
  unfold turning act
  simp only [performIs,bindOp,bindRet]
  refine ⟨fun _ wrong => Op.noConfusion wrong,
    fun config => everyAfterBind (all config [⟨.loopTurn,config⟩] rfl) fun _ later => ?_⟩
  exact ⟨fun _ wrong => Op.noConfusion wrong,fun _ => trivial⟩

theorem programGuarded (c : Call) : (program lib key c).EveryAfter (Guard lib c) [] := by
  have others : (∀ config, ¬ Performs c (.setConfig config)) → (program lib key c).EveryAfter (Guard lib c) [] := by
    intro never
    refine everyAfterOfEvery (fun _ o allowed config same => ?_) (programPerforms lib key c) []
    subst same
    exact absurd allowed (never config)
  cases c with
  | udp addr bytes draws =>
    refine guardTurning fun config done turn => ?_
    have bare : ∀ m, (act (.send (.udp addr) m)).Every fun o => ∀ config, o ≠ .setConfig config :=
      fun m => everyAct fun _ wrong => by cases wrong
    have asks : ∀ {α : Type} (p : Prog PeerRegistry.Op PeerRegistry.Resp α),
        (registry p).Every fun o => ∀ config, o ≠ .setConfig config := everyRegistry fun _ _ wrong => by cases wrong
    have idle : (Prog.ret () : Prog Op Resp Unit).Every fun o => ∀ config, o ≠ .setConfig config := trivial
    unfold handleUdp
    split
    · refine guardBare (everyIte.mpr ⟨fun _ => everyBind (asks _) fun _ => everyBind (bare _) fun _ => ?_,fun _ => idle⟩) done
      exact everyIte.mpr ⟨fun _ => bare _,fun _ => idle⟩
    · exact guardBare (everyIte.mpr ⟨fun _ => idle,fun _ => everyBind (asks _) fun _ => bare _⟩) done
    · exact guardBare (bare _) done
    · rename_i cu parsed
      refine everyAfterIte.mpr ⟨fun granted => ⟨?_,fun _ => trivial⟩,fun _ => trivial⟩
      rintro config' ⟨⟩
      exact ⟨_,.update cu,turn,⟨addr,bytes,draws,rfl,parsed,granted.1⟩,granted.2,rfl⟩
    · exact guardBare (everyIte.mpr ⟨fun _ => bare _,fun _ => idle⟩) done
    · trivial
  | turn =>
    refine guardTurning fun config done turn => ⟨fun _ wrong => Op.noConfusion wrong,fun data => ?_⟩
    have now : turnOf (done ++ [⟨.dequeue,data⟩]) = some ⟨config,data⟩ := by
      rw [turnLast,turn]
      rfl
    cases (data : Option Data) with
    | none => trivial
    | some data =>
      cases data with
      | msg m addr =>
        refine guardBare ?_ _
        exact everyDeliver (fun _ _ wrong => by cases wrong) (fun _ _ wrong => by cases wrong) fun _ _ _ wrong => by cases wrong
      | relayServers0 rs =>
        refine ⟨?_,fun _ => trivial⟩
        rintro config' ⟨⟩
        exact ⟨_,.named rs,now,rfl,rfl,rfl⟩
      | relayServers rs =>
        refine ⟨?_,fun _ => trivial⟩
        rintro config' ⟨⟩
        exact ⟨_,.sampled rs,now,rfl,rfl,rfl⟩
  | tcp conn frame draws => exact others fun _ wrong => by rcases wrong with wrong | wrong <;> cases wrong
  | close conn => exact others fun _ wrong => by cases wrong
  | console addr cmd => exact others fun _ wrong => by cases cmd <;> exact wrong
  | _ => exact others fun _ wrong => wrong

/- What is put in the queue for the loop's configuration, and by whom. -/
def Asks (lib : Library) (c : Call) (o : Op) : Prop :=
  (∀ rs, o = .enqueue (.relayServers0 rs) → ∃ addr, (lib.tryIntoV4 addr).ip.isLoopback = true ∧
    (c = .console addr (.relayServers rs) ∨ c = .console addr (.alwaysUseRelay rs))) ∧
  ∀ rs, o = .enqueue (.relayServers rs) → ∃ reachable, c = .relayCheck reachable ∧ rs ≠ [] ∧ ∀ x ∈ rs, x ∈ reachable

theorem programAsks (c : Call) : (program lib key c).Every (Asks lib c) := by
  have others : (∀ rs, ¬ Performs c (.enqueue (.relayServers0 rs))) → (∀ rs, ¬ Performs c (.enqueue (.relayServers rs))) →
      (program lib key c).Every (Asks lib c) := by
    intro unnamed unsampled
    refine everyMono (fun o allowed => ⟨?_,?_⟩) (programPerforms lib key c)
    · rintro rs rfl
      exact absurd allowed (unnamed rs)
    · rintro rs rfl
      exact absurd allowed (unsampled rs)
  have silent : ∀ {α : Type} {p : Prog Op Resp α}, (p.Every fun o => ∀ d, o ≠ .enqueue d) → p.Every (Asks lib c) := by
    exact everyMono fun o bare => ⟨fun rs same => absurd same (bare _),fun rs same => absurd same (bare _)⟩
  have enters : (turning (pure : Config → Prog Op Resp Config)).Every (Asks lib c) :=
    silent (everyTurning (fun _ => Op.noConfusion) (fun _ => Op.noConfusion) fun _ => trivial)
  cases c with
  | console addr cmd =>
    refine everyBind enters fun config => everyIte.mpr ⟨fun local' => ?_,fun _ => trivial⟩
    have queued : ∀ rs, cmd = .relayServers rs ∨ cmd = .alwaysUseRelay rs →
        Asks lib (.console addr cmd) (.enqueue (.relayServers0 rs)) := by
      intro rs which
      refine ⟨?_,by rintro rs' ⟨⟩⟩
      rintro rs' ⟨⟩
      exact ⟨addr,local',which.imp (congrArg _) (congrArg _)⟩
    cases cmd with
    | relayServers rs => exact everyAct (queued rs (.inl rfl))
    | alwaysUseRelay rs => exact ⟨⟨by simp,by simp⟩,fun _ => everyAct (queued rs (.inr rfl))⟩
    | testGeo => exact silent (everyBind (everyGetRelayServer (fun _ => Op.noConfusion)) fun _ => trivial)
    | display => trivial
    | _ => exact silent (everyAct fun _ => Op.noConfusion)
  | relayCheck reachable =>
    refine everyBind enters fun config => everyIte.mpr ⟨fun _ => everyIte.mpr ⟨fun some => everyAct ⟨by simp,?_⟩,fun _ => trivial⟩,
      fun _ => trivial⟩
    rintro rs ⟨⟩
    exact ⟨reachable,rfl,by simpa using some,fun x member => (List.mem_bagInter.mp member).1⟩
  | tcp conn frame draws =>
    exact others (fun rs wrong => by rcases wrong with wrong | wrong <;> cases wrong)
      fun rs wrong => by rcases wrong with wrong | wrong <;> cases wrong
  | _ => exact others (fun rs wrong => by cases wrong) fun rs wrong => by cases wrong

end Programs

section Runs
variable {lib : Library} {expired : Nat → Nat} {key : String} {ok : World → Act Call Env → Prop} {s : Server} {w : World}

theorem asked (reach : (machine lib expired key).Reach ok s w) {q : Happening} (member : q ∈ w.log) : Asks lib q.call q.did.1 := by
  obtain ⟨next,path⟩ := Machine.eventPath reach member
  exact (everyOnPath path (programAsks q.call)).2.1

section Performed
variable {i : Nat} {c : Call} {o : Op} {next : Resp o → Prog Op Resp Unit} {e : Happening} {change : Change}

end Performed

end Runs

section Concrete

end Concrete
end OpenuuServer.ConfigHistory
