import OpenuuServer.RendezvousConfig

/-! Console commands and the relay servers of hbbs. A command that concerns them is queued for the
main loop, which takes one entry a turn; messages to peers and the reports of the relay check wait
in the same queue. -/
namespace OpenuuServer.RendezvousCommands
open AtomicProgram RendezvousMessages RendezvousServer RendezvousPrograms RendezvousConfig
open PeerRegistry (Bytes SocketAddr LockPeer Registry Outage)
open AccountStore (Store)

abbrev Happening := Event Op Resp Call Server

section Text

/- Unicode's White_Space. -/
def isWhitespace (c : Char) : Bool :=
  let n := c.toNat
  (9 ≤ n && n ≤ 13) || n = 0x20 || n = 0x85 || n = 0xa0 || n = 0x1680 || (0x2000 ≤ n && n ≤ 0x200a) || n = 0x2028 || n = 0x2029 ||
    n = 0x202f || n = 0x205f || n = 0x3000

def trim (text : List Char) : List Char := ((text.dropWhile isWhitespace).reverse.dropWhile isWhitespace).reverse

def digits (text : List Char) : Option Nat :=
  if text ≠ [] ∧ text.all Char.isDigit then some (text.foldl (fun n c => 10 * n + (c.toNat - 48)) 0) else none

/- `parse::<i32>` -/
def parseI32 (text : String) : Option Int :=
  let number : Option Int := match text.toList with
    | '+' :: rest => (digits rest).map Int.ofNat
    | '-' :: rest => (digits rest).map fun n => -(n : Int)
    | rest => (digits rest).map Int.ofNat
  number.filter fun n => -2147483648 ≤ n ∧ n ≤ 2147483647

/- Entries are listed from a number on; anything else names one, which goes when a dash follows. -/
def forgotten (most : Int) : List String → Option String
  | name :: "-" :: _ => if (parseI32 name).any fun n => 0 ≤ n ∧ n ≤ most then none else some name
  | _ => none

def words (cmd : String) : List String := ((trim cmd.toList).splitOn ' ').map String.ofList

/- What `check_cmd` makes of a line; `isIp` tells what an IpAddr can be parsed from. -/
def command (isIp : String → Bool) (cmd : String) : Command :=
  match words cmd with
  | "relay-servers" :: rs :: _ | "rs" :: rs :: _ => .relayServers rs
  | "ip-blocker" :: rest | "ib" :: rest => .ipBlocker (forgotten 2147483647 rest)
  | "ip-changes" :: rest | "ic" :: rest => .ipChanges (forgotten 10000000 rest)
  | "punch-requests" :: "-" :: _ | "pr" :: "-" :: _ => .clearPunchRequests
  | "always-use-relay" :: arg :: _ | "aur" :: arg :: _ => .alwaysUseRelay arg
  | "test-geo" :: a :: rest | "tg" :: a :: rest => if isIp a && rest.head?.all isIp then .testGeo else .display
  | _ => .display

/- A line names relay servers only when it begins with that command. -/
theorem namesServers {isIp : String → Bool} {cmd rs : String} : command isIp cmd = .relayServers rs ↔
    ∃ more, words cmd = "relay-servers" :: rs :: more ∨ words cmd = "rs" :: rs :: more := by
  unfold command
  constructor
  · intro same
    split at same
    all_goals first | (split at same <;> cases same) | cases same
    · rename_i named
      exact ⟨_,.inl named⟩
    · rename_i named
      exact ⟨_,.inr named⟩
  · rintro ⟨more,named | named⟩ <;> rw [named] <;> rfl

example : command (fun _ => true) " aur Y\n" = .alwaysUseRelay "Y" := by decide

end Text

/- What a log tells of the queue: the calls whose entries wait in it, the call whose entry the loop
has in hand, and the list that the last relay-servers command gave. -/
structure Ledger where
  waiting : List Call
  hand : Option Call
  list : List String

def listAfter (lib : Library) (list : List String) : Option Call → List String
  | some (.console _ (.relayServers rs)) => getServers lib rs
  | _ => list

def Ledger.next (lib : Library) (l : Ledger) (e : Happening) : Ledger :=
  match e.did.1 with
  | .enqueue _ => { l with waiting := l.waiting ++ [e.call] }
  | .dequeue => { l with hand := l.waiting.head?,waiting := l.waiting.tail }
  | .setConfig _ => { l with list := listAfter lib l.list l.hand }
  | .loopDone => { l with hand := none }
  | _ => l

def ledger (lib : Library) (start : String) (log : List Happening) : Ledger :=
  log.foldl (Ledger.next lib) ⟨[],none,getServers lib start⟩

/- A command that is not to change the relay servers. -/
def Foreign : Call → Prop
  | .console _ (.relayServers _) => False
  | .console _ _ => True
  | _ => False

structure Commanded (lib : Library) (start : String) (w : World) : Prop where
  list : w.shared.config.relayServers0 = (ledger lib start w.log).list
  direct : ∀ e ∈ w.log, ∀ addr cmd, e.call = .console addr cmd → ∀ config, e.did.1 ≠ .setConfig config
  frame : ∀ e ∈ w.log, ∀ config c, e.did.1 = .setConfig config → (ledger lib start (w.log.take e.pos)).hand = some c →
    Foreign c → config.relayServers0 = e.before.config.relayServers0 ∧ config.relayServers = e.before.config.relayServers

/- Where the loop takes the argument of an always-use-relay command for a list of relay servers, that
list is the one in use already. -/
def Repeats (lib : Library) (start : String) (w : World) : Act Call Env → Prop
  | .advance i => ∀ config, w.next i = some (.setConfig config) →
      ∀ addr arg, (ledger lib start w.log).hand = some (.console addr (.alwaysUseRelay arg)) →
        getServers lib arg = w.shared.config.relayServers0 ∧ getServers lib arg = w.shared.config.relayServers
  | _ => True

/- How a turn changes the relay servers, given what it took from the queue. -/
def Applies (lib : Library) (t : Turn) (config : Config) : Prop :=
  match t.data with
  | some (.relayServers0 rs) => config = t.config.parseRelayServers lib rs
  | some (.relayServers rs) => config = { t.config with relayServers := rs }
  | _ => config.relayServers0 = t.config.relayServers0 ∧ config.relayServers = t.config.relayServers

/- The entries that a call queues. -/
def Fits (d : Data) : Call → Prop
  | .console _ (.relayServers rs) | .console _ (.alwaysUseRelay rs) => d = .relayServers0 rs
  | .console _ _ => False
  | _ => ∀ rs, d ≠ .relayServers0 rs

theorem queuedFits {c : Call} {d : Data} (allowed : Performs c (.enqueue d)) : Fits d c := by
  cases c with
  | tcp conn frame draws =>
    rintro rs rfl
    rcases allowed with wrong | wrong <;> cases wrong
  | close conn => cases (allowed : outer (.enqueue d) = true)
  | console addr cmd =>
    cases cmd <;> exact allowed
  | relayCheck reachable =>
    obtain ⟨rs,rfl⟩ := allowed
    intro rs' wrong
    cases wrong
  | _ => exact absurd allowed id

section Programs
variable {lib : Library} {key : String}

def Guard (lib : Library) (done : List (Did Op Resp)) (o : Op) : Prop :=
  ∀ config, o = .setConfig config → ∃ t, turnOf done = some t ∧ Applies lib t config

theorem guardBare {α : Type} {p : Prog Op Resp α} (all : p.Every fun o => ∀ config, o ≠ .setConfig config)
    (done : List (Did Op Resp)) : p.EveryAfter (Guard lib) done :=
  everyAfterOfEvery (fun _ _ bare config same => absurd same (bare config)) all done

theorem guardTurning {body : Config → Prog Op Resp Unit}
    (all : ∀ config done, turnOf done = some ⟨config,none⟩ → (body config).EveryAfter (Guard lib) done) :
    (turning body).EveryAfter (Guard lib) [] := by
  unfold turning act
  simp only [performIs,bindOp,bindRet]
  refine ⟨fun _ wrong => Op.noConfusion wrong,
    fun config => everyAfterBind (all config [⟨.loopTurn,config⟩] rfl) fun _ later => ?_⟩
  exact ⟨fun _ wrong => Op.noConfusion wrong,fun _ => trivial⟩

theorem programGuarded (c : Call) : (program lib key c).EveryAfter (Guard lib) [] := by
  have others : (∀ config, ¬ Performs c (.setConfig config)) → (program lib key c).EveryAfter (Guard lib) [] := by
    intro never
    refine everyAfterOfEvery (fun _ o allowed config same => ?_) (programPerforms lib key c) []
    subst same
    exact absurd allowed (never config)
  cases c with
  | udp addr bytes draws =>
    refine guardTurning fun config done turn => ?_
    have bare : ∀ m, (act (.send (.udp addr) m)).Every fun o => ∀ config, o ≠ .setConfig config :=
      fun m => everyAct fun _ wrong => by cases wrong
    have asks : ∀ {α : Type} (p : Prog PeerRegistry.Op PeerRegistry.Resp α),
        (registry p).Every fun o => ∀ config, o ≠ .setConfig config := everyRegistry fun _ _ wrong => by cases wrong
    have idle : (Prog.ret () : Prog Op Resp Unit).Every fun o => ∀ config, o ≠ .setConfig config := trivial
    unfold handleUdp
    split
    · refine guardBare (everyIte.mpr ⟨fun _ => everyBind (asks _) fun _ => everyBind (bare _) fun _ => ?_,fun _ => idle⟩) done
      exact everyIte.mpr ⟨fun _ => bare _,fun _ => idle⟩
    · exact guardBare (everyIte.mpr ⟨fun _ => idle,fun _ => everyBind (asks _) fun _ => bare _⟩) done
    · exact guardBare (bare _) done
    · refine everyAfterIte.mpr ⟨fun _ => ⟨?_,fun _ => trivial⟩,fun _ => trivial⟩
      rintro config' ⟨⟩
      exact ⟨_,turn,rfl,rfl⟩
    · exact guardBare (everyIte.mpr ⟨fun _ => bare _,fun _ => idle⟩) done
    · trivial
  | turn =>
    refine guardTurning fun config done turn => ⟨fun _ wrong => Op.noConfusion wrong,fun data => ?_⟩
    have now : turnOf (done ++ [⟨.dequeue,data⟩]) = some ⟨config,data⟩ := by
      rw [turnLast,turn]
      rfl
    cases (data : Option Data) with
    | none => trivial
    | some data =>
      cases data with
      | msg m addr =>
        refine guardBare ?_ _
        exact everyDeliver (fun _ _ wrong => by cases wrong) (fun _ _ wrong => by cases wrong) fun _ _ _ wrong => by cases wrong
      | relayServers0 rs =>
        refine ⟨?_,fun _ => trivial⟩
        rintro config' ⟨⟩
        exact ⟨_,now,rfl⟩
      | relayServers rs =>
        refine ⟨?_,fun _ => trivial⟩
        rintro config' ⟨⟩
        exact ⟨_,now,rfl⟩
  | tcp conn frame draws => exact others fun _ wrong => by rcases wrong with wrong | wrong <;> cases wrong
  | close conn => exact others fun _ wrong => by cases wrong
  | console addr cmd => exact others fun _ wrong => by cases cmd <;> exact wrong
  | _ => exact others fun _ wrong => wrong

end Programs

section Runs
variable {lib : Library} {expired : Nat → Nat} {key start : String} {ok : World → Act Call Env → Prop} {s : Server} {w : World}

@[simp] theorem ledgerLast (log : List Happening) (e : Happening) :
    ledger lib start (log ++ [e]) = (ledger lib start log).next lib e := by simp [ledger]

theorem guardNow (reach : (machine lib expired key).Reach ok s w) {i c o} {next : Resp o → Prog Op Resp Unit}
    (found : w.tasks[i]? = some ⟨c,.op o next,true⟩) : Guard lib (w.didsOf i) o := by
  have later := everyAfterOnPath (Machine.taskPath reach found) (programGuarded c)
  exact later.1

theorem performsNow (reach : (machine lib expired key).Reach ok s w) {i : Nat} {c o} {next : Resp o → Prog Op Resp Unit}
    (found : w.tasks[i]? = some ⟨c,.op o next,true⟩) : Performs c o :=
  (everyOnPath (Machine.taskPath reach found) (programPerforms lib key c)).2.1

theorem firstTaken {queue : List Data} {waiting : List Call} (all : List.Forall₂ Fits queue waiting) :
    Option.Rel Fits queue.head? waiting.head? ∧ List.Forall₂ Fits queue.tail waiting.tail := by
  cases all with
  | nil => exact ⟨.none,.nil⟩
  | cons first rest => exact ⟨.some first,rest⟩

/- The ledger is right about the queue and about the entry in hand. -/
structure Kept (lib : Library) (start : String) (w : World) : Prop where
  queue : List.Forall₂ Fits w.shared.queue (ledger lib start w.log).waiting
  hand : ∀ i t, turnOf (w.didsOf i) = some t → Option.Rel Fits t.data (ledger lib start w.log).hand
  idle : w.shared.looping = false → (ledger lib start w.log).hand = none

/- What the loop makes of the entry in hand. -/
theorem appliedAs {t : Turn} {config : Config} {hand : Option Call} (applies : Applies lib t config)
    (fits : Option.Rel Fits t.data hand)
    (repeats : ∀ addr arg, hand = some (Call.console addr (.alwaysUseRelay arg)) →
      getServers lib arg = t.config.relayServers0 ∧ getServers lib arg = t.config.relayServers) :
    config.relayServers0 = listAfter lib t.config.relayServers0 hand ∧ ∀ c, hand = some c → Foreign c →
      config.relayServers0 = t.config.relayServers0 ∧ config.relayServers = t.config.relayServers := by
  obtain ⟨before,data⟩ := t
  cases fits with
  | none =>
    have same : config.relayServers0 = before.relayServers0 ∧ config.relayServers = before.relayServers := applies
    exact ⟨same.1,fun c wrong => by cases wrong⟩
  | @some d c fits =>
    -- only the commands that name relay servers put a list in the queue
    have kept : (∀ rs, d ≠ .relayServers0 rs) → config.relayServers0 = before.relayServers0 := by
      intro other
      cases d with
      | msg m addr => exact applies.1
      | relayServers0 rs => exact absurd rfl (other rs)
      | relayServers rs =>
        have same : config = { before with relayServers := rs } := applies
        rw [same]
    cases c with
    | console addr cmd =>
      cases cmd with
      | relayServers rs =>
        cases (fits : d = .relayServers0 rs)
        have same : config = before.parseRelayServers lib rs := applies
        refine ⟨by rw [same]; rfl,?_⟩
        rintro c ⟨⟩ foreign
        cases foreign
      | alwaysUseRelay arg =>
        cases (fits : d = .relayServers0 arg)
        have same : config = before.parseRelayServers lib arg := applies
        obtain ⟨list,used⟩ := repeats addr arg rfl
        have both : config.relayServers0 = before.relayServers0 ∧ config.relayServers = before.relayServers := by
          rw [same]
          exact ⟨list,used⟩
        exact ⟨both.1,fun _ _ _ => both⟩
      | _ => cases (fits : False)
    | _ =>
      refine ⟨kept fits,?_⟩
      rintro c ⟨⟩ foreign
      cases foreign

theorem runKept (reach : (machine lib expired key).Reach ok s w) (empty : s.queue = []) :
    Kept lib start w := by
  refine Machine.invariant (I := Kept lib start) ?_ ?_ ?_ ?_ reach
  · refine ⟨?_,fun i t mine => (by cases mine),fun _ => rfl⟩
    rw [show (Machine.initial s : World).shared = s from rfl,empty]
    exact .nil
  · intro w c _ _ ih
    exact ⟨ih.queue,ih.hand,ih.idle⟩
  · intro w i c o next before _ found ready ih
    have due := dueNow before found
    have turning := runTurning before
    obtain ⟨-,looping,queue⟩ := execLoop lib expired o w.shared
    have now : ((machine lib expired key).performed w i c o next).shared = (exec lib expired o w.shared).2 := rfl
    have log : ((machine lib expired key).performed w i c o next).log =
        w.log ++ [(machine lib expired key).happening w i c o] := rfl
    have alone : ∀ t, turnOf (w.didsOf i) = some t → ∀ j u, turnOf (w.didsOf j) = some u → i = j :=
      fun t mine j u theirs => turning.alone i j t u mine theirs
    refine ⟨?_,fun j t theirs => ?_,fun off => ?_⟩
    · rw [now,log,queue,ledgerLast]
      cases o with
      | enqueue d => exact List.rel_append ih.queue (.cons (queuedFits (performsNow before found)) .nil)
      | dequeue => exact (firstTaken ih.queue).2
      | _ => exact ih.queue
    · rw [turnPerformed] at theirs
      rw [log,ledgerLast]
      split at theirs
      · rename_i same
        subst same
        cases o with
        | loopTurn =>
          cases theirs
          have off : w.shared.looping = false := by simpa [machine,RendezvousServer.ready] using ready
          change Option.Rel Fits none (ledger lib start w.log).hand
          rw [ih.idle off]
          exact .none
        | loopDone => cases theirs
        | dequeue =>
          obtain ⟨u,mine,rfl⟩ := Option.map_eq_some_iff.mp theirs
          exact (firstTaken ih.queue).1
        | setConfig config =>
          obtain ⟨u,mine,rfl⟩ := Option.map_eq_some_iff.mp theirs
          exact ih.hand i u mine
        | _ => exact ih.hand i t theirs
      · rename_i apart
        cases o with
        | loopTurn =>
          have off : w.shared.looping = false := by simpa [machine,RendezvousServer.ready] using ready
          cases off.symm.trans (turning.current j t theirs).1
        | loopDone | dequeue =>
          obtain ⟨u,mine⟩ := Option.isSome_iff_exists.mp due
          exact absurd (alone u mine j t theirs) apart
        | setConfig config =>
          obtain ⟨u,mine,-⟩ := due
          exact absurd (alone u mine j t theirs) apart
        | _ => exact ih.hand j t theirs
    · rw [now,looping] at off
      rw [log,ledgerLast]
      cases o with
      | loopTurn => cases off
      | loopDone => rfl
      | dequeue =>
        obtain ⟨u,mine⟩ := Option.isSome_iff_exists.mp due
        cases off.symm.trans (turning.current i u mine).1
      | _ => exact ih.idle off
  · intro w e _ _ ih
    cases e <;> exact ⟨ih.queue,ih.hand,ih.idle⟩

/- As long as the loop takes the argument of an always-use-relay command only where it lists the relay
servers in use, these are the ones that the last relay-servers command gave, and no other command
changes them. -/
theorem commandedWhileRepeats {accounts : Store} {registry : Registry} {config : Config}
    (reach : (machine lib expired key).Reach (Repeats lib start) (.init accounts registry (config.parseRelayServers lib start)) w) :
    Commanded lib start w := by
  refine Machine.invariant (I := Commanded lib start) ?_ ?_ ?_ ?_ reach
  · refine ⟨rfl,?_,?_⟩ <;> intro e member <;> cases member
  · intro w c _ _ ih
    exact ⟨ih.list,ih.direct,ih.frame⟩
  · intro w i c o next before repeats found _ ih
    have kept : Kept lib start w := runKept before rfl
    have log : ((machine lib expired key).performed w i c o next).log =
        w.log ++ [(machine lib expired key).happening w i c o] := rfl
    have now : ((machine lib expired key).performed w i c o next).shared.config = configAfter w.shared.config o :=
      (execLoop lib expired o w.shared).1
    -- what a new configuration is, when this step makes one
    have applied : ∀ config, o = .setConfig config →
        config.relayServers0 = listAfter lib w.shared.config.relayServers0 (ledger lib start w.log).hand ∧
        ∀ c, (ledger lib start w.log).hand = some c → Foreign c →
          config.relayServers0 = w.shared.config.relayServers0 ∧ config.relayServers = w.shared.config.relayServers := by
      rintro config rfl
      obtain ⟨t,mine,applies⟩ := guardNow before found config rfl
      have current := ((runTurning before).current i t mine).2
      rw [current]
      refine appliedAs applies (kept.hand i t mine) fun addr arg command => ?_
      rw [← current]
      exact repeats config (nextIs found) addr arg command
    refine ⟨?_,fun e member addr cmd call config => ?_,fun e member config c did hand foreign => ?_⟩
    · rw [now,log,ledgerLast]
      cases o with
      | setConfig config =>
        refine (applied config rfl).1.trans ?_
        rw [ih.list]
        rfl
      | _ => exact ih.list
    · rcases Machine.memPerformed.mp member with old | rfl
      · exact ih.direct e old addr cmd call config
      · rintro rfl
        have allowed := performsNow before found
        cases (call : c = .console addr cmd)
        cases cmd <;> exact allowed
    · rcases Machine.memPerformed.mp member with old | rfl
      · rw [log,List.take_append_of_le_length (Nat.le_of_lt (Machine.olderPosition before old))] at hand
        exact ih.frame e old config c did hand foreign
      · rw [log,show ((machine lib expired key).happening w i _ o).pos = w.log.length from rfl,List.take_left] at hand
        exact (applied config did).2 c hand foreign
  · intro w e _ _ ih
    cases e <;> exact ⟨ih.list,ih.direct,ih.frame⟩

end Runs

section Concrete

/- A host called Y does not resolve. -/
def hosts : Library := { plainLibrary fun _ => none with validServer := fun host => decide (host ≠ "Y") }

def repeats (w : World) : Act Call Env → Bool
  | .advance i => match w.next i,(ledger hosts "a,b" w.log).hand with
    | some (.setConfig _),some (.console _ (.alwaysUseRelay arg)) => decide
        (getServers hosts arg = w.shared.config.relayServers0 ∧
        getServers hosts arg = w.shared.config.relayServers)
    | _,_ => true
  | _ => true

theorem repeatsSound (w : World) (a : Act Call Env) (holds : repeats w a = true) : Repeats hosts "a,b" w a := by
  cases a with
  | advance i =>
    intro config due addr arg hand
    simp only [repeats,due,hand] at holds
    exact of_decide_eq_true holds
  | start c => trivial
  | env e => trivial

def started : Server := .init (.init 100) (.init bootInstant .empty) (oneServer.parseRelayServers hosts "a,b")

def onConsole (i : Nat) (cmd : String) (steps : Nat) : List (Act Call Env) :=
  [.start (.console operator (command (fun _ => true) cmd))] ++ advances i steps

def taken (i : Nat) : List (Act Call Env) := [.start .turn] ++ advances i 4

/- Relays are forced, and the relay servers are gone. -/
theorem forcingDropsServers : ∃ w, (machine hosts hourAgo "").Reach (fun _ _ => True) started w ∧
    w.shared.config.relayServers0 = [] ∧ w.shared.config.relayServers = [] ∧ ¬ Commanded hosts "a,b" w := by
  obtain ⟨w,reach,shown⟩ := Machine.reachWith (fun _ _ => True) (fun _ _ => true) (fun _ _ _ => trivial)
    (m := machine hosts hourAgo "") (s := started) (onConsole 0 "always-use-relay Y" 4 ++ taken 1)
    (P := fun w => decide (w.shared.config.relayServers0 = [] ∧ w.shared.config.relayServers = [] ∧
      (ledger hosts "a,b" w.log).list = ["a","b"])) (by decide +kernel)
  obtain ⟨configured,used,given⟩ := of_decide_eq_true shown
  refine ⟨w,reach,configured,used,fun commanded => ?_⟩
  have same := commanded.list
  rw [configured,given] at same
  cases same

theorem forcingRepeats : ∃ w, (machine hosts hourAgo "").Reach (Repeats hosts "a,b") started w ∧
    w.shared.config.relayServers0 = ["b"] ∧ w.shared.alwaysUseRelay = false ∧ Commanded hosts "a,b" w := by
  obtain ⟨w,reach,shown⟩ := Machine.reachWith (Repeats hosts "a,b") repeats repeatsSound
    (m := machine hosts hourAgo "") (s := started)
    (onConsole 0 "relay-servers b" 3 ++ taken 1 ++ onConsole 2 "ip-blocker 203.0.113.5 -" 3 ++ onConsole 3 "aur b" 4 ++ taken 4)
    (P := fun w => decide (w.shared.config.relayServers0 = ["b"] ∧ w.shared.alwaysUseRelay = false)) (by decide +kernel)
  obtain ⟨list,off⟩ := of_decide_eq_true shown
  exact ⟨w,reach,list,off,commandedWhileRepeats reach⟩

end Concrete
end OpenuuServer.RendezvousCommands
