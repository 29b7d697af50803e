import OpenuuServer.RendezvousService

/-! The sinks in `tcp_peers`. A send takes the sink out of its slot, writes without the lock, and
puts the sink back if the slot still looks empty. The placeholder in the slot does not say
whose it is: a send that began before the address was registered again takes the placeholder
of a later send for its own. -/
namespace OpenuuServer.PeerSinks
open AtomicProgram RendezvousMessages RendezvousServer RendezvousService
open PeerRegistry (Bytes SocketAddr)

/- The connection registered under an address: the last one that stored its sink there, unless
the address was forgotten since. -/
def registrantAfter (key : SocketAddr) (r : Option Conn) (e : Event Op Resp Call Server) : Option Conn :=
  match e.did.1 with
  | .peersInsert key' _ => if key = key' then behalf e.call else r
  | .peersRemove key' => if key = key' then none else r
  | _ => r

def registrant (w : World) (key : SocketAddr) : Option Conn := w.log.foldl (registrantAfter key) none

/- A send on the address is under way with the sink. -/
def InFlight (w : World) (key : SocketAddr) (sink : Sink) : Prop :=
  ∃ i, w.Running i ∧ held (w.didsOf i) = some (key,sink)

/- A real sink belongs to the connection registered under its key, and the sink of a registered
connection is in its slot or on its way back there. -/
structure SinksKept (w : World) : Prop where
  own : ∀ key sink conn, w.shared.tcpPeers.lookup key = some sink → owner sink = some conn → registrant w key = some conn
  kept : ∀ key conn, registrant w key = some conn → ∃ sink, owner sink = some conn ∧
    (w.shared.tcpPeers.lookup key = some sink ∨ w.shared.tcpPeers.lookup key = some .closed ∧ InFlight w key sink)

structure Reachable (w : World) : Prop where
  placeholder : ∀ key, w.shared.tcpPeers.lookup key = some .closed → ∃ sink, InFlight w key sink
  reachable : ∀ key conn, registrant w key = some conn → (∀ sink, ¬ InFlight w key sink) →
    ∃ sink, owner sink = some conn ∧ w.shared.tcpPeers.lookup key = some sink

/- What a task is about to put back. -/
def putsBack (w : World) (i : Nat) : Option (SocketAddr × Sink) :=
  match w.next i with
  | some (.peersPutBack key sink) => some (key,sink)
  | _ => none

def rekeys (key : SocketAddr) : Op → Bool
  | .peersInsert key' _ | .peersRemove key' => key = key'
  | _ => false

/- A send about to put its sink into a placeholder though the connection was forgotten, or the
address registered again, since it took the sink. -/
def Stale (w : World) (i : Nat) : Prop :=
  ∃ back ∈ putsBack w i, w.shared.tcpPeers.lookup back.1 = some .closed ∧
    ∃ t ∈ w.log, ∃ d ∈ w.log, t.task = i ∧ t.did.1 = .peersTake back.1 ∧
      (∀ t' ∈ w.log, t'.task = i → t'.did.1 = .peersTake back.1 → t'.pos ≤ t.pos) ∧
      rekeys back.1 d.did.1 = true ∧ t.pos < d.pos

def InPlace (w : World) : Act Call Env → Prop
  | .advance i => ¬ Stale w i
  | _ => True

instance (w i) : Decidable (Stale w i) := by unfold Stale; infer_instance
instance (w : World) : (a : Act Call Env) → Decidable (InPlace w a)
  | .advance i => inferInstanceAs (Decidable (¬ Stale w i))
  | .start _ | .env _ => .isTrue trivial

section Runs
variable {lib : Library} {expired : Nat → Nat} {name : String} {ok : World → Act Call Env → Prop} {s : Server} {w : World}

theorem registrantStep (w : World) {i c o} {next : Resp o → Prog Op Resp Unit} (key : SocketAddr) :
    registrant ((machine lib expired name).performed w i c o next) key =
      registrantAfter key (registrant w key) ((machine lib expired name).happening w i c o) := by
  simp [registrant,Machine.performed]

/- An operation that gives the address to another connection, or to none, rekeys it. -/
theorem registrantSame {key : SocketAddr} {r : Option Conn} {e : Event Op Resp Call Server}
    (other : rekeys key e.did.1 = false) : registrantAfter key r e = r := by
  unfold registrantAfter
  unfold rekeys at other
  split <;> simp_all

/- What a send knows of the sink it took last: it is the registered connection's, unless the
address was rekeyed since. -/
def Flight (w : World) (i : Nat) (key : SocketAddr) (sink : Sink) : Prop :=
  sink ≠ .closed ∧ ∃ t ∈ w.log, t.task = i ∧ t.did.1 = .peersTake key ∧
    (∀ t' ∈ w.log, t'.task = i → t'.did.1 = .peersTake key → t'.pos ≤ t.pos) ∧
    (owner sink = registrant w key ∨ ∃ d ∈ w.log, rekeys key d.did.1 = true ∧ t.pos < d.pos)

/- The invariant of the slots, the registrations and the sends under way. -/
structure Slots (w : World) : Prop where
  vacant : ∀ key, registrant w key = none → w.shared.tcpPeers.lookup key = none
  taken : ∀ key conn, registrant w key = some conn → ∃ sink, owner sink = some conn ∧
    (w.shared.tcpPeers.lookup key = some sink ∨
      w.shared.tcpPeers.lookup key = some .closed ∧ ∃ i, held (w.didsOf i) = some (key,sink))
  flights : ∀ i key sink, held (w.didsOf i) = some (key,sink) → Flight w i key sink

theorem slotOwner (slots : Slots w) {key sink conn} (there : w.shared.tcpPeers.lookup key = some sink)
    (mine : owner sink = some conn) : registrant w key = some conn := by
  cases registered : registrant w key with
  | none =>
    rw [slots.vacant key registered] at there
    cases there
  | some conn' =>
    obtain ⟨sink',theirs,here | ⟨closed,_⟩⟩ := slots.taken key conn' registered
    · rw [there] at here
      cases Option.some.inj here
      exact theirs.symm.trans mine
    · rw [there] at closed
      cases Option.some.inj closed
      cases mine

theorem peerSame {key : SocketAddr} {l : Option Sink} {o : Op} (other : rekeys key o = false) (untaken : o ≠ .peersTake key)
    (left : ∀ sink, o ≠ .peersPutBack key sink) : peerAfter key l o = l := by
  cases o with
  | peersInsert key' sink => exact if_neg (of_decide_eq_false other)
  | peersRemove key' => exact if_neg (of_decide_eq_false other)
  | peersTake key' => exact if_neg fun same => untaken (by rw [same])
  | peersPutBack key' sink => exact if_neg fun both => left sink (by rw [both.1])
  | _ => rfl

section Step
variable {i : Nat} {c : Call} {o : Op} {next : Resp o → Prog Op Resp Unit}

theorem slotsVacant (ih : Slots w) (due : Due lib c (w.didsOf i) o) {key}
    (registered : registrant ((machine lib expired name).performed w i c o next) key = none) :
    ((machine lib expired name).performed w i c o next).shared.tcpPeers.lookup key = none := by
  rw [registrantStep] at registered
  simp only [Machine.performed,machine,execPeer]
  by_cases other : rekeys key o = false
  · rw [registrantSame other] at registered
    rw [ih.vacant key registered]
    cases o with
    | peersInsert key' sink => exact if_neg (of_decide_eq_false other)
    | peersTake key' => exact ite_self _
    | peersPutBack key' sink => exact if_neg fun both => by cases both.2
    | peersRemove key' => exact ite_self _
    | _ => rfl
  · have hit : rekeys key o = true := by simpa using other
    cases o with
    | peersInsert key' sink =>
      cases of_decide_eq_true hit
      obtain ⟨conn,serving,_⟩ := due
      have given : behalf c = none := by simpa [registrantAfter,Machine.happening] using registered
      cases given.symm.trans serving.1
    | peersRemove key' => exact if_pos (of_decide_eq_true hit)
    | _ => cases hit

theorem slotsTaken (ih : Slots w) (due : Due lib c (w.didsOf i) o)
    (own : ∀ conn sink, ⟨.takeSink conn,some sink⟩ ∈ w.didsOf i → owner sink = some conn)
    (timely : ∀ key sink, o = .peersPutBack key sink → w.shared.tcpPeers.lookup key = some .closed →
      owner sink = registrant w key) {key conn}
    (registered : registrant ((machine lib expired name).performed w i c o next) key = some conn) :
    ∃ sink, owner sink = some conn ∧
      (((machine lib expired name).performed w i c o next).shared.tcpPeers.lookup key = some sink ∨
        ((machine lib expired name).performed w i c o next).shared.tcpPeers.lookup key = some .closed ∧
          ∃ j, held (((machine lib expired name).performed w i c o next).didsOf j) = some (key,sink)) := by
  rw [registrantStep] at registered
  have slot : ∀ l, w.shared.tcpPeers.lookup key = l →
      ((machine lib expired name).performed w i c o next).shared.tcpPeers.lookup key = peerAfter key l o := by
    rintro _ rfl
    exact execPeer o w.shared key
  by_cases other : rekeys key o = false
  · rw [registrantSame other] at registered
    obtain ⟨sink,mine,here | ⟨placeholder,j,holds⟩⟩ := ih.taken key conn registered
    · -- the sink is in its slot, unless this is a send that takes it
      refine ⟨sink,mine,?_⟩
      have live : sink ≠ .closed := by rintro rfl; cases mine
      by_cases takes : o = .peersTake key
      · subst takes
        refine .inr ⟨(slot _ here).trans (if_pos rfl),i,?_⟩
        rw [heldPerformed,if_pos rfl,takeHolds here live]
      · refine .inl ((slot _ here).trans ?_)
        by_cases back : ∃ sink', o = .peersPutBack key sink'
        · obtain ⟨sink',rfl⟩ := back
          exact if_neg fun both => live (Option.some.inj both.2)
        · exact peerSame other takes fun sink' same => back ⟨sink',same⟩
    · -- a send has it, and puts it back into the placeholder
      by_cases back : ∃ sink', o = .peersPutBack key sink'
      · obtain ⟨sink',rfl⟩ := back
        refine ⟨sink',(timely key sink' rfl placeholder).trans registered,.inl ((slot _ placeholder).trans ?_)⟩
        exact if_pos ⟨rfl,rfl⟩
      · refine ⟨sink,mine,.inr ⟨(slot _ placeholder).trans ?_,j,stillHeld due holds fun _ sink' same => back ⟨sink',same⟩⟩⟩
        by_cases takes : o = .peersTake key
        · subst takes
          exact if_pos rfl
        · exact peerSame other takes fun sink' same => back ⟨sink',same⟩
  · have hit : rekeys key o = true := by simpa using other
    cases o with
    | peersInsert key' sink =>
      cases of_decide_eq_true hit
      obtain ⟨conn',serving,_,taken⟩ := due
      have given : behalf c = some conn := by simpa [registrantAfter,Machine.happening] using registered
      cases Option.some.inj (given.symm.trans serving.1)
      exact ⟨sink,own conn sink taken,.inl ((slot _ rfl).trans (if_pos rfl))⟩
    | peersRemove key' =>
      cases of_decide_eq_true hit
      simp [registrantAfter,Machine.happening] at registered
    | _ => cases hit

theorem slotsFlights (ih : Slots w) (before : (machine lib expired name).Reach ok s w) (due : Due lib c (w.didsOf i) o)
    {j key sink} (holds : held (((machine lib expired name).performed w i c o next).didsOf j) = some (key,sink)) :
    Flight ((machine lib expired name).performed w i c o next) j key sink := by
  -- a send that has had its sink before
  have old : held (w.didsOf j) = some (key,sink) → (i = j → ∀ key, o ≠ .peersTake key) →
      Flight ((machine lib expired name).performed w i c o next) j key sink := by
    intro had untaken
    obtain ⟨live,t,inside,task,takes,last,since⟩ := ih.flights j key sink had
    refine ⟨live,t,Machine.stillThere inside,task,takes,fun t' there mine again => ?_,?_⟩
    · rcases Machine.memPerformed.mp there with earlier | rfl
      · exact last t' earlier mine again
      · exact absurd again (untaken mine key)
    · by_cases other : rekeys key o = false
      · rw [registrantStep,registrantSame other]
        exact since.imp (fun same => same) fun ⟨d,known,rest⟩ => ⟨d,Machine.stillThere known,rest⟩
      · exact .inr ⟨_,Machine.happened,Bool.eq_true_of_not_eq_false other,Machine.olderPosition before inside⟩
  rw [heldPerformed] at holds
  split at holds
  · rename_i same
    subst same
    rcases holdStep holds with ⟨rfl,there,live⟩ | ⟨had,_⟩
    · refine ⟨live,_,Machine.happened,rfl,rfl,fun t' there' _ _ => ?_,.inl ?_⟩
      · rcases Machine.memPerformed.mp there' with earlier | rfl
        · exact Nat.le_of_lt (Machine.olderPosition before earlier)
        · exact Nat.le_refl _
      · rw [registrantStep,registrantSame rfl]
        cases mine : owner sink with
        | none => cases sink <;> simp_all [owner]
        | some conn => exact (slotOwner ih there mine).symm
    · refine old had fun _ key' takes => ?_
      subst takes
      exact absurd (had.symm.trans due) (by simp)
  · rename_i apart
    exact old holds fun same => absurd same apart

end Step

theorem runSlots (inPlace : ∀ w a, ok w a → InPlace w a) (closed : s.links = ∅) (empty : s.tcpPeers = ∅)
    (reach : (machine lib expired name).Reach ok s w) : Slots w := by
  refine Machine.invariant (I := Slots) ?_ ?_ ?_ ?_ reach
  · refine ⟨fun key _ => ?_,fun key conn registered => ?_,fun i key sink holds => ?_⟩
    · rw [Machine.initial,empty]
      rfl
    · cases registered
    · cases holds
  · intro w c _ _ ih
    exact ⟨ih.vacant,ih.taken,ih.flights⟩
  · intro w i c o next before meets found _ ih
    have due := dueNext before found
    have own : ∀ conn sink, ⟨.takeSink conn,some sink⟩ ∈ w.didsOf i → owner sink = some conn := by
      intro conn sink done
      obtain ⟨e,inside,_,did⟩ := didsOfMember.mp done
      exact takenSinkOwn closed before inside (.inl did)
    have timely : ∀ key sink, o = .peersPutBack key sink → w.shared.tcpPeers.lookup key = some .closed →
        owner sink = registrant w key := by
      rintro key sink rfl placeholder
      obtain ⟨_,t,inside,task,takes,last,same | ⟨d,known,hit,less⟩⟩ := ih.flights i key sink due
      · exact same
      · refine absurd ⟨(key,sink),?_,placeholder,t,inside,d,known,task,takes,last,hit,less⟩ (inPlace _ _ meets)
        rw [putsBack,nextIs found]
        rfl
    exact ⟨fun key => slotsVacant ih due,fun key conn => slotsTaken ih due own timely,
      fun j key sink => slotsFlights ih before due⟩
  · intro w e _ _ ih
    have same : (Env.apply e w.shared).tcpPeers = w.shared.tcpPeers := by cases e <;> rfl
    refine ⟨fun key registered => ?_,fun key conn registered => ?_,ih.flights⟩
    · simp only [Machine.disturbed,machine,same]
      exact ih.vacant key registered
    · simp only [Machine.disturbed,machine,same]
      exact ih.taken key conn registered

/- In every run the placeholder stands in a slot only while a send is under way. -/
theorem placeholderInFlight (closed : s.links = ∅) (empty : s.tcpPeers = ∅) (reach : (machine lib expired name).Reach ok s w) :
    ∀ key, w.shared.tcpPeers.lookup key = some .closed → ∃ i sink, held (w.didsOf i) = some (key,sink) := by
  refine Machine.invariant (I := fun w => ∀ key, w.shared.tcpPeers.lookup key = some .closed →
    ∃ i sink, held (w.didsOf i) = some (key,sink)) ?_ ?_ ?_ ?_ reach
  · intro key placeholder
    rw [Machine.initial,empty] at placeholder
    cases placeholder
  · intro w c _ _ ih; exact ih
  · intro w i c o next before _ found _ ih key placeholder
    have due := dueNext before found
    simp only [Machine.performed,machine,execPeer] at placeholder
    -- the send that made the placeholder still has its sink
    have still : w.shared.tcpPeers.lookup key = some .closed → (∀ sink, o ≠ .peersPutBack key sink) →
        ∃ j sink, held (((machine lib expired name).performed w i c o next).didsOf j) = some (key,sink) := by
      intro old left
      obtain ⟨j,sink,holds⟩ := ih key old
      exact ⟨j,sink,stillHeld due holds fun _ => left⟩
    cases o with
    | peersInsert key' sink =>
      simp only [peerAfter] at placeholder
      split at placeholder
      · cases Option.some.inj placeholder
        obtain ⟨conn,_,_,taken⟩ := due
        obtain ⟨e,inside,_,did⟩ := didsOfMember.mp taken
        cases takenSinkOwn closed before inside (.inl did)
      · exact still placeholder (by simp)
    | peersTake key' =>
      simp only [peerAfter] at placeholder
      split at placeholder
      · rename_i same
        subst same
        obtain ⟨sink,there,_⟩ := Option.map_eq_some_iff.mp placeholder
        by_cases live : sink = .closed
        · subst live
          exact still there (by simp)
        · exact ⟨i,sink,by rw [heldPerformed,if_pos rfl,takeHolds there live]⟩
      · exact still placeholder (by simp)
    | peersPutBack key' sink =>
      simp only [peerAfter] at placeholder
      split at placeholder
      · cases Option.some.inj placeholder
        exact absurd rfl (heldLive due)
      · rename_i other
        refine still placeholder fun sink' same => other ⟨?_,placeholder⟩
        injection same with same
        exact same.symm
    | peersRemove key' =>
      simp only [peerAfter] at placeholder
      split at placeholder
      · cases placeholder
      · exact still placeholder (by simp)
    | _ => exact still placeholder (by simp)
  · intro w e _ _ ih key placeholder
    exact ih key (by cases e <;> exact placeholder)

end Runs

section Ownership
variable {lib : Library} {expired : Nat → Nat} {name : String} {accounts : AccountStore.Store}
variable {peers : PeerRegistry.Registry} {config : Config} {w : World}

/- As long as no send puts its sink into the placeholder of a later one, every sink in
`tcp_peers` belongs to the connection registered there, and no registered connection
loses its sink. -/
theorem sinksKeptUnlessStale (reach : (machine lib expired name).Reach InPlace (.init accounts peers config) w) :
    SinksKept w := by
  have slots := runSlots (fun _ _ h => h) rfl rfl reach
  refine ⟨fun key sink conn there mine => slotOwner slots there mine,fun key conn registered => ?_⟩
  obtain ⟨sink,mine,here | ⟨placeholder,i,holds⟩⟩ := slots.taken key conn registered
  · exact ⟨sink,mine,.inl here⟩
  · exact ⟨sink,mine,.inr ⟨placeholder,i,holderRuns reach holds,holds⟩⟩

end Ownership

def peerAddr : SocketAddr := ⟨.v4 198 51 100 2,4000⟩

def firstConn : Conn := ⟨0,peerAddr,false⟩

/- The same address again, after the first connection was closed. -/
def secondConn : Conn := ⟨1,peerAddr,false⟩

def senderConn : Conn := ⟨2,⟨.v4 203 0 113 9,4000⟩,false⟩

def registerOrAnswer : Bytes → Option Message
  | [1] => some (.registerPeer ⟨"100000003",0⟩)
  | [2] => some (.punchHoleSent ⟨plainEncode peerAddr,"100000004","",.unknownNat,""⟩)
  | _ => none

def drawn : Draws := calm AccountCalls.mintedB

def emptyServer : Server := .init (.init 100) (.init bootInstant .empty) oneServer

def registered : List (Act Call Env) :=
  [.start (.accept firstConn [] [])] ++ advances 0 4 ++ [.start (.tcp firstConn [1] drawn)] ++ advances 1 8 ++
    [.start (.accept senderConn [] [])] ++ advances 2 4 ++ [.start (.tcp senderConn [2] drawn)] ++ advances 3 3

/- A send to the first connection is under way when that is closed and the second registers under
its address. The reply to the second is under way when the first send puts back its sink. -/
def staleActs : List (Act Call Env) := registered ++
  [.start (.close firstConn)] ++ advances 4 5 ++ [.start (.accept secondConn [] [])] ++ advances 5 4 ++
    [.start (.tcp secondConn [1] drawn)] ++ advances 6 5 ++ advances 3 2 ++ advances 6 3

theorem laterSinkLost : ∃ w, (machine (plainLibrary registerOrAnswer) hourAgo "").Reach
    (Distinct (plainLibrary registerOrAnswer)) emptyServer w ∧
    w.shared.tcpPeers.lookup peerAddr = some (.tcpStream firstConn none) ∧ registrant w peerAddr = some secondConn ∧
    ¬ SinksKept w := by
  obtain ⟨w,reach,shown⟩ := Machine.reachWith (Distinct (plainLibrary registerOrAnswer))
    (fun w a => decide (Distinct (plainLibrary registerOrAnswer) w a)) (fun _ _ => of_decide_eq_true) staleActs
    (m := machine (plainLibrary registerOrAnswer) hourAgo "") (s := emptyServer)
    (P := fun w => decide (w.shared.tcpPeers.lookup peerAddr = some (.tcpStream firstConn none)) &&
      decide (registrant w peerAddr = some secondConn)) (by decide +kernel)
  simp only [Bool.and_eq_true,decide_eq_true_eq] at shown
  obtain ⟨there,later⟩ := shown
  refine ⟨w,reach,there,later,fun kept => ?_⟩
  have earlier := kept.own peerAddr _ firstConn there rfl
  rw [later] at earlier
  cases earlier

/- Here the connection stays, and a second send finds the placeholder of the first. -/
def inPlaceActs : List (Act Call Env) :=
  registered ++ [.start (.tcp firstConn [1] drawn)] ++ advances 4 5 ++ advances 3 2

theorem registeredSinkKept : ∃ w, (machine (plainLibrary registerOrAnswer) hourAgo "").Reach InPlace emptyServer w ∧
    w.shared.tcpPeers.lookup peerAddr = some (.tcpStream firstConn none) ∧ registrant w peerAddr = some firstConn ∧
    SinksKept w := by
  obtain ⟨w,reach,shown⟩ := Machine.reachWith InPlace (fun w a => decide (InPlace w a)) (fun _ _ => of_decide_eq_true)
    inPlaceActs (m := machine (plainLibrary registerOrAnswer) hourAgo "") (s := emptyServer)
    (P := fun w => decide (w.shared.tcpPeers.lookup peerAddr = some (.tcpStream firstConn none)) &&
      decide (registrant w peerAddr = some firstConn)) (by decide +kernel)
  simp only [Bool.and_eq_true,decide_eq_true_eq] at shown
  exact ⟨w,reach,shown.1,shown.2,sinksKeptUnlessStale reach⟩

section Delivery
variable {lib : Library} {expired : Nat → Nat} {name : String} {accounts : AccountStore.Store}
variable {peers : PeerRegistry.Registry} {config : Config} {w : World}

/- Under the same condition a registered peer can be reached whenever no send to it is under way. -/
theorem reachableUnlessStale (reach : (machine lib expired name).Reach InPlace (.init accounts peers config) w) :
    Reachable w := by
  refine ⟨fun key placeholder => ?_,fun key conn registered quiet => ?_⟩
  · obtain ⟨i,sink,holds⟩ := placeholderInFlight rfl rfl reach key placeholder
    exact ⟨sink,i,holderRuns reach holds,holds⟩
  · have slots := runSlots (fun _ _ h => h) rfl rfl reach
    obtain ⟨sink,mine,here | ⟨_,i,holds⟩⟩ := slots.taken key conn registered
    · exact ⟨sink,mine,here⟩
    · exact absurd ⟨i,holderRuns reach holds,holds⟩ (quiet sink)

end Delivery

/- No send is under way any more, and yet nothing that hbbs pushes gets to the second connection. -/
theorem registeredPeerUnreachable : ∃ w, (machine (plainLibrary registerOrAnswer) hourAgo "").Reach
    (Distinct (plainLibrary registerOrAnswer)) emptyServer w ∧ registrant w peerAddr = some secondConn ∧
    (∀ sink, ¬ InFlight w peerAddr sink) ∧ ¬ Reachable w := by
  obtain ⟨w,reach,shown⟩ := Machine.reachWith (Distinct (plainLibrary registerOrAnswer))
    (fun w a => decide (Distinct (plainLibrary registerOrAnswer) w a)) (fun _ _ => of_decide_eq_true) staleActs
    (m := machine (plainLibrary registerOrAnswer) hourAgo "") (s := emptyServer)
    (P := fun w => decide (w.shared.tcpPeers.lookup peerAddr = some (.tcpStream firstConn none)) &&
      decide (registrant w peerAddr = some secondConn) &&
      decide (∀ i < w.tasks.length, held (w.didsOf i) = none)) (by decide +kernel)
  simp only [Bool.and_eq_true,decide_eq_true_eq] at shown
  obtain ⟨⟨there,later⟩,idle⟩ := shown
  have quiet : ∀ sink, ¬ InFlight w peerAddr sink := by
    rintro sink ⟨i,⟨c,o,next,found⟩,holds⟩
    rw [idle i (List.getElem?_eq_some_iff.mp found).1] at holds
    cases holds
  refine ⟨w,reach,later,quiet,fun delivers => ?_⟩
  obtain ⟨sink,mine,here⟩ := delivers.reachable peerAddr secondConn later quiet
  rw [there] at here
  cases Option.some.inj here
  cases mine

theorem placeholderExplained : ∃ w, (machine (plainLibrary registerOrAnswer) hourAgo "").Reach InPlace emptyServer w ∧
    w.shared.tcpPeers.lookup peerAddr = some .closed ∧ Reachable w := by
  obtain ⟨w,reach,shown⟩ := Machine.reachWith InPlace (fun w a => decide (InPlace w a)) (fun _ _ => of_decide_eq_true)
    registered (m := machine (plainLibrary registerOrAnswer) hourAgo "") (s := emptyServer)
    (P := fun w => decide (w.shared.tcpPeers.lookup peerAddr = some .closed)) (by decide +kernel)
  exact ⟨w,reach,of_decide_eq_true shown,reachableUnlessStale reach⟩

end OpenuuServer.PeerSinks
