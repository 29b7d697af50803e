import OpenuuServer.RelayPairing
import OpenuuServer.RendezvousServer
import Mathlib.Data.Finset.Insert

/-! The two lists of IPs that hbbr consults, BLOCKLIST and BLACKLIST, and the loop of `relay`
that samples them. Addresses are in the lists as texts. The loop is given the address of the
later arrival, as its socket or its proxy header gave it; the console edits the lists meanwhile. -/
namespace OpenuuServer.RelayLists
open IpText RelayPairing
open PeerRegistry (SocketAddr)
open RendezvousServer (plainV4 mappedV4 whole wholeHalves)

/- The one address an IPv4 address and its IPv4-mapped form stand for. -/
def canonical (ip : IpAddr) : IpAddr := (plainV4 ⟨ip,0⟩).ip

def mapped : IpAddr → IpAddr
  | .v4 a b c d => .v6 ⟨[0,0,0,0,0,0xffff,whole a b,whole c d],rfl⟩
  | .v6 segments => .v6 segments

def forms (ip : IpAddr) : List IpAddr := [canonical ip,mapped (canonical ip)]

inductive ListName where
  | blacklist
  | blocklist
  deriving DecidableEq

structure Lists where
  blacklist : Finset String
  blocklist : Finset String
  deriving DecidableEq

inductive Change where
  | add (ip : String)
  | remove (ip : String)
  | clear
  deriving DecidableEq

structure Edit where
  list : ListName
  change : Change
  deriving DecidableEq

def Change.apply : Change → Finset String → Finset String
  | .add ip,list => insert ip list
  | .remove ip,list => list.erase ip
  | .clear,_ => ∅

def Edit.apply (e : Edit) (l : Lists) : Lists :=
  match e.list with
  | .blacklist => { l with blacklist := e.change.apply l.blacklist }
  | .blocklist => { l with blocklist := e.change.apply l.blocklist }

def Lists.edited (l : Lists) (es : List Edit) : Lists := es.foldl (fun l e => e.apply l) l

def split (ip : String) : List String := (ip.toList.splitOn '|').map String.ofList

def addCmd (list : ListName) (ip : String) : List Edit := (split ip).map fun ip => ⟨list,.add ip⟩

def removeCmd (list : ListName) (ip : String) : List Edit :=
  if ip = "all" then [⟨list,.clear⟩] else (split ip).map fun ip => ⟨list,.remove ip⟩

/- What a console command writes to the lists, given its words; each write takes the lock anew. -/
def checkCmd : List String → List Edit
  | cmd :: ip :: _ =>
    if cmd = "blacklist-add" ∨ cmd = "ba" then addCmd .blacklist ip
    else if cmd = "blacklist-remove" ∨ cmd = "br" then removeCmd .blacklist ip
    else if cmd = "blocklist-add" ∨ cmd = "Ba" then addCmd .blocklist ip
    else if cmd = "blocklist-remove" ∨ cmd = "Br" then removeCmd .blocklist ip
    else []
  | _ => []

inductive Handled where
  | console
  | blocked
  | pair
  deriving DecidableEq

def handleConnection (tryIntoV4 : SocketAddr → SocketAddr) (lists : Lists) (addr : SocketAddr) (ws : Bool) : Handled :=
  let ip := (tryIntoV4 addr).ip
  if !ws && ip.isLoopback then .console
  else if ip.text ∈ lists.blocklist then .blocked
  else .pair

/- The address a WebSocket upgrade leaves: that of the proxy header, where it can be parsed. -/
def makePairAddr (addr : SocketAddr) (ws : Bool) (realIp : Option IpAddr) : SocketAddr :=
  if ws then (realIp.map fun ip => (⟨ip,0⟩ : SocketAddr)).getD addr else addr

def pairAddr (addr : SocketAddr) : Addr := ⟨addr.ip.text,addr.port⟩

/- The stream that was waiting in PEERS and the one that found it there. -/
inductive Side where
  | peer
  | stream
  deriving DecidableEq

def Side.other : Side → Side
  | .peer => .stream
  | .stream => .peer

inductive Limiter where
  | single
  | blacklist
  | total
  deriving DecidableEq

inductive Event where
  | recv (side : Side) (bytes : Option (List UInt8))
  | tick
  deriving DecidableEq

inductive Ended where
  | closed
  | sendFailed
  | timeout
  | blocked
  deriving DecidableEq

inductive Output where
  | consume (limiter : Limiter) (bits : Nat)
  | sendRaw (side : Side) (bytes : List UInt8)
  | usage (id : String) (usage : Usage)
  deriving DecidableEq

/- One turn of the loop, with all that comes to it from outside: instants are nanoseconds of the
monotonic clock; the console edits the lists up to the read of BLOCKLIST and between the two reads. -/
structure Round where
  event : Event
  received : Nat
  sent : Bool
  sampled : Nat
  before : List Edit
  between : List Edit
  restarted : Nat
  startCheck : Nat
  deriving DecidableEq

structure Locals where
  tm : Nat
  elapsed : Nat
  total : Nat
  totalS : Nat
  highestS : Nat
  downgrade : Bool
  blacked : Bool
  lastRecvTime : Nat
  deriving DecidableEq

structure Relay where
  lists : Lists
  locals : Locals
  ended : Option Ended
  outputs : List Output
  deriving DecidableEq

def Relay.start (lists : Lists) (now : Nat) : Relay := ⟨lists,⟨now,0,0,0,0,false,false,now⟩,none,[]⟩

def limiterOf (m : Locals) : Limiter := if m.blacked || m.downgrade then .blacklist else .single

/- The arm of the `select!` that was ready: what it did, and why the loop stops there if it does. -/
def arm (r : Round) (m : Locals) : List Output × Locals × Option Ended :=
  match r.event with
  | .recv side (some bytes) =>
    let nb := bytes.length * 8
    let consumed := [.consume (limiterOf m) nb,.consume .total nb]
    let m := { m with lastRecvTime := r.received,total := m.total + nb,totalS := m.totalS + nb }
    if bytes.isEmpty then (consumed,m,none)
    else (consumed ++ [.sendRaw side.other bytes],m,if r.sent then none else some .sendFailed)
  | .recv _ none => ([],m,some .closed)
  | .tick => ([],m,if (r.received - m.lastRecvTime) / 1000000000 > 30 then some .timeout else none)

def millis (r : Round) (m : Locals) : Nat := (r.sampled - m.tm) / 1000000

/- The bookkeeping of a sample, once BLOCKLIST let it pass. -/
def measured (threshold : Nat) (blacked : Bool) (r : Round) (m : Locals) : Locals × Usage :=
  let n := millis r m
  let speed := m.totalS / n
  let highest := if speed > m.highestS then speed else m.highestS
  let elapsed := m.elapsed + n
  let downgrade := m.downgrade ||
    decide (elapsed > r.startCheck) && !m.downgrade && decide (m.total > elapsed * threshold)
  (⟨r.restarted,elapsed,m.total,0,highest,downgrade,blacked,m.lastRecvTime⟩,(elapsed,m.total,highest,speed))

def sample (addr : Addr) (threshold : Nat) (r : Round) (lists : Lists) (m : Locals) :
    List Output × Locals × Option Ended :=
  if millis r m ≥ 1000 then
    if addr.ip ∈ (lists.edited r.before).blocklist then ([],m,some .blocked)
    else
      let blacked := decide (addr.ip ∈ ((lists.edited r.before).edited r.between).blacklist)
      let (m,usage) := measured threshold blacked r m
      ([.usage addr.text usage],m,none)
  else ([],m,none)

def turn (addr : Addr) (threshold : Nat) (s : Relay) (r : Round) : List Output × Locals × Option Ended :=
  match s.ended with
  | some ended => ([],s.locals,some ended)
  | none => match arm r s.locals with
    | (outputs,m,some ended) => (outputs,m,some ended)
    | (outputs,m,none) =>
      let (sampled,m,ended) := sample addr threshold r s.lists m
      (outputs ++ sampled,m,ended)

def Relay.round (addr : Addr) (threshold : Nat) (s : Relay) (r : Round) : Relay :=
  let (outputs,m,ended) := turn addr threshold s r
  ⟨(s.lists.edited r.before).edited r.between,m,ended,s.outputs ++ outputs⟩

def relay (addr : Addr) (threshold : Nat) (s : Relay) (rs : List Round) : Relay :=
  rs.foldl (Relay.round addr threshold) s

theorem canonicalPlain (addr : SocketAddr) : (plainV4 addr).ip = canonical addr.ip := by
  obtain ⟨ip,port⟩ := addr
  cases ip <;> rfl

/- At the door the form of an address makes no difference. -/
theorem acceptedInAnyForm {addr addr' : SocketAddr} (same : canonical addr.ip = canonical addr'.ip) (lists : Lists)
    (ws : Bool) : handleConnection plainV4 lists addr ws = handleConnection plainV4 lists addr' ws := by
  unfold handleConnection
  rw [canonicalPlain,canonicalPlain,same]

/- The pairing calls the loop with the address of the arrival that found the other one waiting. -/
theorem makePairRelays (key : String) (i : Nat) (c : Call) : (makePair key i c).EveryAfter
    (fun _ o => ∀ addr stream peer id, o = .relay addr stream peer id → addr = c.addr ∧ id = c.addr.text) [] := by
  refine AtomicProgram.everyAfterOfEvery (Q := fun o : Op => ∀ addr stream peer id, o = .relay addr stream peer id →
    addr = c.addr ∧ id = c.addr.text) (fun _ _ here => here) ?_ []
  unfold makePair act
  have other : ∀ {o : Op}, relayed o = [] → ∀ addr stream peer id, o = .relay addr stream peer id →
      addr = c.addr ∧ id = c.addr.text := by
    rintro _ none addr stream peer id rfl
    cases none
  cases c.received with
  | requestRelay rf =>
    simp only [AtomicProgram.performIs,AtomicProgram.bindOp,AtomicProgram.bindRet]
    refine ⟨other rfl,fun _ => ⟨other rfl,fun redeemed => ?_⟩⟩
    cases redeemed with
    | false => trivial
    | true =>
      simp only [Bool.not_true,Bool.false_eq_true,if_false]
      split
      · trivial
      split
      · trivial
      refine ⟨other rfl,fun found => ?_⟩
      cases found with
      | none => exact ⟨other rfl,fun _ => ⟨other rfl,fun _ => ⟨other rfl,fun _ => ⟨other rfl,fun _ => trivial⟩⟩⟩⟩
      | some peer =>
        refine ⟨other rfl,fun _ => ?_⟩
        split
        · exact ⟨fun _ _ _ _ same => by cases same; exact ⟨rfl,rfl⟩,fun _ => ⟨other rfl,fun _ => trivial⟩⟩
        · exact ⟨fun _ _ _ _ same => by cases same; exact ⟨rfl,rfl⟩,fun _ => ⟨other rfl,fun _ => trivial⟩⟩
  | _ => exact ⟨other rfl,fun _ => trivial⟩

theorem relayOfLater {key : String} {now : Nat} {w : World}
    (reach : (machine key).Reach (fun _ _ => True) (State.init now) w) {e} (inside : e ∈ w.log)
    {addr stream peer id} (relay : e.did.1 = .relay addr stream peer id) :
    addr = e.call.addr ∧ id = e.call.addr.text ∧ ∃ d ∈ w.log, d.task = peer.task ∧ d.pos < e.pos ∧
      ∃ uuid found, d.did.1 = .park uuid found := by
  obtain ⟨_,called,_⟩ := AtomicProgram.Machine.guarded (makePairRelays key) reach inside
  obtain ⟨_,guard,past⟩ := behind reach inside
  rw [relay] at guard
  obtain ⟨rf,_,_,found,take,same⟩ := guard
  obtain ⟨b,taken,_,less,did⟩ := past _ take
  obtain ⟨d,parked,park,before⟩ := takenParked rfl reach taken did
  have owner := parkTask reach parked park
  exact ⟨(called _ _ _ _ relay).1,(called _ _ _ _ relay).2,d,parked,owner.symm.trans same.symm,by omega,_,_,park⟩

/- The turns at whose end the loop samples the lists. -/
def Samples (s : Relay) (r : Round) : Prop :=
  s.ended = none ∧ (arm r s.locals).2.2 = none ∧ 1000 ≤ millis r (arm r s.locals).2.1

instance (s : Relay) (r : Round) : Decidable (Samples s r) := inferInstanceAs (Decidable (_ ∧ _ ∧ _))

/- BLOCKLIST and BLACKLIST as a sample reads them. -/
def blockRead (s : Relay) (r : Round) : Finset String := (s.lists.edited r.before).blocklist

def blackRead (s : Relay) (r : Round) : Finset String := ((s.lists.edited r.before).edited r.between).blacklist

def traffic (s : Relay) (r : Round) : List Output :=
  match s.ended with
  | some _ => []
  | none => (arm r s.locals).1

def Unsampled (addr : Addr) (threshold : Nat) : Relay → List Round → Prop
  | _,[] => True
  | s,r :: rs => ¬ Samples s r ∧ Unsampled addr threshold (s.round addr threshold r) rs

/- The two ends of a session, in the order of their arrival. -/
structure Ends where
  first : SocketAddr
  later : SocketAddr
  deriving DecidableEq

def Ends.run (e : Ends) (threshold : Nat) (s : Relay) (rs : List Round) : Relay :=
  relay (pairAddr e.later) threshold s rs

/- The same two ends up to the form of an address, in either order. -/
def Ends.Alike (e e' : Ends) : Prop :=
  canonical e.first.ip = canonical e'.first.ip ∧ canonical e.later.ip = canonical e'.later.ip ∨
    canonical e.first.ip = canonical e'.later.ip ∧ canonical e.later.ip = canonical e'.first.ip

def Ends.Listed (e : Ends) (list : Finset String) : Prop :=
  (canonical e.first.ip).text ∈ list ∨ (canonical e.later.ip).text ∈ list

instance (e : Ends) (list : Finset String) : Decidable (e.Listed list) := inferInstanceAs (Decidable (_ ∨ _))

def Ends.forms (e : Ends) : List IpAddr := RelayLists.forms e.first.ip ++ RelayLists.forms e.later.ip

/- The list has all the forms of the addresses of both ends, or none of them. -/
def Ends.Uniform (e : Ends) (list : Finset String) : Prop :=
  ∀ x ∈ e.forms, ∀ y ∈ e.forms, x.text ∈ list ↔ y.text ∈ list

instance (e : Ends) (list : Finset String) : Decidable (e.Uniform list) :=
  inferInstanceAs (Decidable (∀ x ∈ e.forms, ∀ y ∈ e.forms, x.text ∈ list ↔ y.text ∈ list))

def Relay.decided (s : Relay) : Option Ended × Bool := (s.ended,s.locals.blacked)

/- What the operator is told of the lists, over one run of a session. -/
structure ListRule (e : Ends) (threshold : Nat) (s : Relay) (rs : List Round) : Prop where
  refused : ∀ front r rest, rs = front ++ r :: rest → Samples (e.run threshold s front) r →
    e.Listed (blockRead (e.run threshold s front) r) →
    (e.run threshold s rs).ended = some .blocked ∧
      (e.run threshold s rs).outputs = (e.run threshold s front).outputs ++ traffic (e.run threshold s front) r
  limited : ∀ front r mid r' rest, rs = front ++ r :: (mid ++ r' :: rest) → Samples (e.run threshold s front) r →
    e.Listed (blackRead (e.run threshold s front) r) →
    Unsampled (pairAddr e.later) threshold (e.run threshold s (front ++ [r])) mid →
    ∀ limiter bits, .consume limiter bits ∈ traffic (e.run threshold s (front ++ r :: mid)) r' →
      limiter = .total ∨ limiter = .blacklist
  alike : ∀ e', e.Alike e' → ∀ front rest, rs = front ++ rest →
    (e'.run threshold s front).decided = (e.run threshold s front).decided

theorem wholeHigh (a b : UInt8) : ((whole a b).toNat / 256).toUInt8 = a := by
  apply UInt8.toNat_inj.mp
  have := a.toNat_lt
  have := b.toNat_lt
  simp [whole]
  omega

theorem wholeLow (a b : UInt8) : (whole a b).toUInt8 = b := by
  apply UInt8.toNat_inj.mp
  simp [whole]

theorem canonicalMapped (ip : IpAddr) : canonical (mapped ip) = canonical ip := by
  cases ip with
  | v4 a b c d => simp [canonical,mapped,plainV4,mappedV4,wholeHigh,wholeLow]
  | v6 segments => rfl

theorem canonicalForm (ip : IpAddr) : canonical ip = ip ∨ mapped (canonical ip) = ip := by
  cases ip with
  | v4 a b c d => exact .inl rfl
  | v6 segments =>
    obtain ⟨list,eight⟩ := segments
    cases found : mappedV4 list with
    | none => exact .inl (by simp [canonical,plainV4,found])
    | some ip =>
      refine .inr ?_
      simp only [canonical,plainV4,found,Option.getD_some]
      unfold mappedV4 at found
      split at found
      · cases found
        simp [mapped,wholeHalves]
      · contradiction

theorem canonicalTwice (ip : IpAddr) : canonical (canonical ip) = canonical ip := by
  rcases canonicalForm ip with plain | mapped
  · rw [plain]
    exact plain
  · rw [← canonicalMapped,mapped]

theorem formIs {ip x : IpAddr} : x ∈ forms ip ↔ canonical x = canonical ip := by
  simp only [forms,List.mem_cons,List.not_mem_nil,or_false]
  constructor
  · rintro (rfl | rfl)
    · exact canonicalTwice ip
    · rw [canonicalMapped,canonicalTwice]
  · intro same
    rw [← same]
    rcases canonicalForm x with plain | mapped
    · exact .inl plain.symm
    · exact .inr mapped.symm

theorem armKeeps (r : Round) (m : Locals) : (arm r m).2.1.blacked = m.blacked := by
  unfold arm
  split
  · split <;> rfl
  · rfl
  · rfl

section Turns
variable {threshold : Nat} {s : Relay} {r : Round}

theorem turnSampled (sampled : Samples s r) (addr : Addr) : turn addr threshold s r =
    if addr.ip ∈ blockRead s r then (traffic s r,(arm r s.locals).2.1,some .blocked)
    else
      let after := measured threshold (decide (addr.ip ∈ blackRead s r)) r (arm r s.locals).2.1
      (traffic s r ++ [.usage addr.text after.2],after.1,none) := by
  obtain ⟨going,ready,second⟩ := sampled
  unfold turn traffic
  rw [going]
  rcases done : arm r s.locals with ⟨outputs,m,ended⟩
  simp only [done] at ready second ⊢
  rw [ready]
  by_cases listed : addr.ip ∈ blockRead s r
  · have listed' : addr.ip ∈ (s.lists.edited r.before).blocklist := listed
    simp only [sample,if_pos second,if_pos listed',if_pos listed,List.append_nil]
  · have listed' : addr.ip ∉ (s.lists.edited r.before).blocklist := listed
    simp only [sample,if_pos second,if_neg listed',if_neg listed]
    rfl

/- A turn without a sample is the same whatever the address. -/
theorem turnSkipped (skipped : ¬ Samples s r) : ∃ m ended, m.blacked = s.locals.blacked ∧
    ∀ addr, turn addr threshold s r = (traffic s r,m,ended) := by
  unfold turn traffic
  cases going : s.ended with
  | some ended => exact ⟨s.locals,some ended,rfl,fun _ => rfl⟩
  | none =>
    have kept := armKeeps r s.locals
    rcases done : arm r s.locals with ⟨outputs,m,_ | ended⟩
    · rw [done] at kept
      have early : ¬ millis r m ≥ 1000 := fun late => skipped ⟨going,by rw [done],by rw [done]; exact late⟩
      exact ⟨m,none,kept,fun addr => by simp [sample,early]⟩
    · rw [done] at kept
      exact ⟨m,some ended,kept,fun _ => rfl⟩

theorem roundLocals (addr : Addr) : (s.round addr threshold r).locals = (turn addr threshold s r).2.1 := rfl

theorem roundEnded (addr : Addr) : (s.round addr threshold r).ended = (turn addr threshold s r).2.2 := rfl

theorem roundOutputs (addr : Addr) :
    (s.round addr threshold r).outputs = s.outputs ++ (turn addr threshold s r).1 := rfl

/- Whether two addresses would be decided alike at this turn. -/
def Agree (s : Relay) (r : Round) (ip ip' : String) : Prop :=
  Samples s r → (ip ∈ blockRead s r ↔ ip' ∈ blockRead s r) ∧
    (ip ∉ blockRead s r → (ip ∈ blackRead s r ↔ ip' ∈ blackRead s r))

theorem turnAgrees {addr addr' : Addr} (agree : Agree s r addr.ip addr'.ip) :
    (turn addr threshold s r).2 = (turn addr' threshold s r).2 := by
  by_cases sampled : Samples s r
  · obtain ⟨block,black⟩ := agree sampled
    rw [turnSampled sampled,turnSampled sampled]
    by_cases listed : addr.ip ∈ blockRead s r
    · rw [if_pos listed,if_pos (block.mp listed)]
    · rw [if_neg listed,if_neg fun other => listed (block.mpr other)]
      simp only [black listed]
  · obtain ⟨m,ended,_,same⟩ := @turnSkipped threshold _ _ sampled
    rw [same,same]

theorem agreeOfTurn {addr addr' : Addr} (ended : (s.round addr threshold r).ended = (s.round addr' threshold r).ended)
    (blacked : (s.round addr threshold r).locals.blacked = (s.round addr' threshold r).locals.blacked) :
    Agree s r addr.ip addr'.ip := by
  intro sampled
  rw [roundEnded,roundEnded,turnSampled sampled,turnSampled sampled] at ended
  rw [roundLocals,roundLocals,turnSampled sampled,turnSampled sampled] at blacked
  by_cases listed : addr.ip ∈ blockRead s r <;> by_cases listed' : addr'.ip ∈ blockRead s r
  · exact ⟨⟨fun _ => listed',fun _ => listed⟩,fun out => absurd listed out⟩
  · simp [listed,listed'] at ended
  · simp [listed,listed'] at ended
  · refine ⟨⟨fun one => absurd one listed,fun other => absurd other listed'⟩,fun _ => ?_⟩
    simpa [listed,listed',measured] using blacked

end Turns

section Runs
variable {threshold : Nat} {s : Relay} {e e' : Ends}

theorem runSnoc (front : List Round) (r : Round) : e.run threshold s (front ++ [r]) =
    (e.run threshold s front).round (pairAddr e.later) threshold r := by
  simp [Ends.run,relay]

theorem runAppend (front back : List Round) : e.run threshold s (front ++ back) =
    relay (pairAddr e.later) threshold (e.run threshold s front) back := by
  simp [Ends.run,relay]

theorem endedStays {addr : Addr} {ended : Ended} (rs : List Round) : ∀ {s : Relay}, s.ended = some ended →
    (relay addr threshold s rs).ended = some ended ∧ (relay addr threshold s rs).outputs = s.outputs := by
  induction rs with
  | nil => exact fun stopped => ⟨stopped,rfl⟩
  | cons r rs ih =>
    intro s stopped
    have same : turn addr threshold s r = ([],s.locals,some ended) := by unfold turn; rw [stopped]
    have next : (s.round addr threshold r).ended = some ended := by rw [roundEnded,same]
    obtain ⟨last,outputs⟩ := ih next
    refine ⟨last,outputs.trans ?_⟩
    rw [roundOutputs,same,List.append_nil]

/- Between samples the loop either goes on as it was decided, or it has ended. -/
theorem unsampledKeeps {addr : Addr} (mid : List Round) : ∀ {s : Relay}, Unsampled addr threshold s mid →
    (relay addr threshold s mid).locals.blacked = s.locals.blacked := by
  induction mid with
  | nil => exact fun _ => rfl
  | cons r mid ih =>
    rintro s ⟨skipped,rest⟩
    obtain ⟨m,ended,kept,same⟩ := @turnSkipped threshold _ _ skipped
    refine (ih rest).trans ?_
    rw [roundLocals,same]
    exact kept

theorem blackedTraffic {r : Round} (blacked : s.ended = none → s.locals.blacked = true) {limiter bits}
    (consumed : .consume limiter bits ∈ traffic s r) : limiter = .total ∨ limiter = .blacklist := by
  unfold traffic at consumed
  cases going : s.ended with
  | some ended => simp [going] at consumed
  | none =>
    have slowed : limiterOf s.locals = .blacklist := by simp [limiterOf,blacked going]
    simp only [going,arm,slowed] at consumed
    split at consumed
    · split at consumed <;> simp at consumed <;> rcases consumed with ⟨rfl,_⟩ | ⟨rfl,_⟩ <;> simp
    · simp at consumed
    · simp at consumed

structure Same (s s' : Relay) : Prop where
  lists : s.lists = s'.lists
  locals : s.locals = s'.locals
  ended : s.ended = s'.ended

theorem sameTurn {s' : Relay} (same : Same s s') (addr : Addr) (r : Round) :
    turn addr threshold s r = turn addr threshold s' r := by
  unfold turn
  rw [same.lists,same.locals,same.ended]

theorem sameRound {s' : Relay} (same : Same s s') {addr addr' : Addr} {r : Round}
    (turns : (turn addr threshold s r).2 = (turn addr' threshold s r).2) :
    Same (s.round addr threshold r) (s'.round addr' threshold r) := by
  refine ⟨?_,?_,?_⟩
  · show (s.lists.edited r.before).edited r.between = _
    rw [same.lists]
    rfl
  · rw [roundLocals,roundLocals,← sameTurn same,turns]
  · rw [roundEnded,roundEnded,← sameTurn same,turns]

theorem pairIp (addr : SocketAddr) : (pairAddr addr).ip = addr.ip.text := rfl

theorem agreeSame {rs : List Round} (agree : ∀ front r rest, rs = front ++ r :: rest →
    Agree (e.run threshold s front) r e.later.ip.text e'.later.ip.text) :
    ∀ front rest, rs = front ++ rest → Same (e.run threshold s front) (e'.run threshold s front) := by
  intro front
  induction front using List.reverseRecOn with
  | nil => exact fun _ _ => ⟨rfl,rfl,rfl⟩
  | append_singleton front r ih =>
    intro rest split
    have split' : rs = front ++ r :: rest := by rw [split]; simp
    rw [runSnoc,runSnoc]
    exact sameRound (ih _ split') (turnAgrees (agree front r rest split'))

theorem agreeAt {front : List Round} {r : Round} (same : Same (e.run threshold s front) (e'.run threshold s front))
    (decided : (e'.run threshold s (front ++ [r])).decided = (e.run threshold s (front ++ [r])).decided) :
    Agree (e.run threshold s front) r e.later.ip.text e'.later.ip.text := by
  rw [runSnoc,runSnoc] at decided
  obtain ⟨ended,blacked⟩ := Prod.mk.inj decided
  rw [roundEnded,roundEnded,← sameTurn same] at ended
  rw [roundLocals,roundLocals,← sameTurn same] at blacked
  exact @agreeOfTurn _ _ _ (pairAddr e.later) (pairAddr e'.later) ended.symm blacked.symm

theorem decidedAgree {rs : List Round} (decided : ∀ front rest, rs = front ++ rest →
    (e'.run threshold s front).decided = (e.run threshold s front).decided) :
    ∀ front r rest, rs = front ++ r :: rest →
      Agree (e.run threshold s front) r e.later.ip.text e'.later.ip.text := by
  have same : ∀ front rest, rs = front ++ rest → Same (e.run threshold s front) (e'.run threshold s front) := by
    intro front
    induction front using List.reverseRecOn with
    | nil => exact fun _ _ => ⟨rfl,rfl,rfl⟩
    | append_singleton front r ih =>
      intro rest split
      have before := ih (r :: rest) (by rw [split]; simp)
      have agree := agreeAt before (decided _ rest split)
      rw [runSnoc,runSnoc]
      exact sameRound before (turnAgrees agree)
  intro front r rest split
  exact agreeAt (same front _ split) (decided _ rest (by rw [split]; simp))

theorem laterForm (alike : e.Alike e') : e'.later.ip ∈ e.forms := by
  unfold Ends.forms
  rcases alike with ⟨_,later⟩ | ⟨first,_⟩
  · exact List.mem_append_right _ (formIs.mpr later.symm)
  · exact List.mem_append_left _ (formIs.mpr first.symm)

theorem formLater {x : IpAddr} (member : x ∈ e.forms) : ∃ e', e.Alike e' ∧ e'.later.ip = x := by
  rcases List.mem_append.mp member with first | later
  · exact ⟨⟨e.later,⟨x,0⟩⟩,.inr ⟨(formIs.mp first).symm,rfl⟩,rfl⟩
  · exact ⟨⟨e.first,⟨x,0⟩⟩,.inl ⟨rfl,(formIs.mp later).symm⟩,rfl⟩

theorem laterListed {list : Finset String} (uniform : e.Uniform list) (listed : e.Listed list) :
    e.later.ip.text ∈ list := by
  have mine : e.later.ip ∈ e.forms := List.mem_append_right _ (formIs.mpr rfl)
  rcases listed with first | later
  · have form : canonical e.first.ip ∈ e.forms := List.mem_append_left _ (formIs.mpr (canonicalTwice _))
    exact (uniform _ form _ mine).mp first
  · have form : canonical e.later.ip ∈ e.forms := List.mem_append_right _ (formIs.mpr (canonicalTwice _))
    exact (uniform _ form _ mine).mp later

end Runs

/- At every sample of the run the lists tell neither end from the other, nor one form of an address
from the other; BLACKLIST is read only where BLOCKLIST let the relay go on. -/
def Indifferent (e : Ends) (threshold : Nat) (s : Relay) (rs : List Round) : Prop :=
  ∀ front r rest, rs = front ++ r :: rest → Samples (e.run threshold s front) r →
    e.Uniform (blockRead (e.run threshold s front) r) ∧
      (e.later.ip.text ∉ blockRead (e.run threshold s front) r → e.Uniform (blackRead (e.run threshold s front) r))

section Sampling
variable {threshold : Nat} {s : Relay} {e : Ends} {rs : List Round}

theorem indifferentAgree (indifferent : Indifferent e threshold s rs) {e'} (alike : e.Alike e') :
    ∀ front r rest, rs = front ++ r :: rest →
      Agree (e.run threshold s front) r e.later.ip.text e'.later.ip.text := by
  intro front r rest split sampled
  obtain ⟨block,black⟩ := indifferent front r rest split sampled
  have mine : e.later.ip ∈ e.forms := List.mem_append_right _ (formIs.mpr rfl)
  exact ⟨block _ mine _ (laterForm alike),fun out => black out _ mine _ (laterForm alike)⟩

theorem sampledBlocked (front : List Round) (r : Round) (rest : List Round)
    (sampled : Samples (e.run threshold s front) r) (listed : e.later.ip.text ∈ blockRead (e.run threshold s front) r) :
    (e.run threshold s (front ++ r :: rest)).ended = some .blocked ∧
      (e.run threshold s (front ++ r :: rest)).outputs =
        (e.run threshold s front).outputs ++ traffic (e.run threshold s front) r := by
  have here := @turnSampled threshold _ _ sampled (pairAddr e.later)
  rw [pairIp,if_pos listed] at here
  have stopped : (e.run threshold s (front ++ [r])).ended = some .blocked := by rw [runSnoc,roundEnded,here]
  have outputs : (e.run threshold s (front ++ [r])).outputs =
      (e.run threshold s front).outputs ++ traffic (e.run threshold s front) r := by
    rw [runSnoc,roundOutputs,here]
  obtain ⟨last,same⟩ := @endedStays threshold (pairAddr e.later) _ rest _ stopped
  rw [show front ++ r :: rest = (front ++ [r]) ++ rest by simp,runAppend]
  exact ⟨last,same.trans outputs⟩

theorem sampledBlacked (front : List Round) (r : Round) (mid : List Round)
    (sampled : Samples (e.run threshold s front) r)
    (uniform : e.later.ip.text ∉ blockRead (e.run threshold s front) r →
      e.later.ip.text ∈ blackRead (e.run threshold s front) r)
    (until' : Unsampled (pairAddr e.later) threshold (e.run threshold s (front ++ [r])) mid)
    (going : (e.run threshold s (front ++ r :: mid)).ended = none) :
    (e.run threshold s (front ++ r :: mid)).locals.blacked = true := by
  have out : e.later.ip.text ∉ blockRead (e.run threshold s front) r := by
    intro listed
    rw [(sampledBlocked front r mid sampled listed).1] at going
    cases going
  have here := @turnSampled threshold _ _ sampled (pairAddr e.later)
  rw [pairIp,if_neg out] at here
  have blacked : (e.run threshold s (front ++ [r])).locals.blacked = true := by
    rw [runSnoc,roundLocals,here]
    exact decide_eq_true (uniform out)
  rw [show front ++ r :: mid = (front ++ [r]) ++ mid by simp,runAppend,unsampledKeeps mid until',blacked]

end Sampling

/- The lists do for both ends, in any order and form, what the operator is told, exactly over the runs
in which they cannot tell the ends and the forms apart. -/
theorem listsHonoured (e : Ends) (threshold : Nat) (lists : Lists) (now : Nat) (rs : List Round) :
    ListRule e threshold (.start lists now) rs ↔ Indifferent e threshold (.start lists now) rs := by
  generalize Relay.start lists now = s
  constructor
  · intro rule front r rest split sampled
    have agree : ∀ x ∈ e.forms, Agree (e.run threshold s front) r e.later.ip.text x.text := by
      intro x member
      obtain ⟨e',alike,rfl⟩ := formLater member
      exact decidedAgree (rule.alike e' alike) front r rest split
    refine ⟨fun x left y right => ?_,fun out x left y right => ?_⟩
    · exact (agree x left sampled).1.symm.trans (agree y right sampled).1
    · exact ((agree x left sampled).2 out).symm.trans ((agree y right sampled).2 out)
  · intro indifferent
    refine ⟨?_,?_,?_⟩
    · intro front r rest split sampled listed
      rw [split]
      exact sampledBlocked front r rest sampled (laterListed (indifferent front r rest split sampled).1 listed)
    · intro front r mid r' rest split sampled listed until' limiter bits
      refine blackedTraffic fun going => ?_
      have uniform := (indifferent front r _ split sampled).2
      exact sampledBlacked front r mid sampled (fun out => laterListed (uniform out) listed) until' going
    · intro e' alike front rest split
      have same := agreeSame (indifferentAgree indifferent alike) front rest split
      exact Prod.ext same.ended.symm (congrArg Locals.blacked same.locals.symm)

def home : SocketAddr := ⟨.v4 203 0 113 5,40001⟩
def away : SocketAddr := ⟨.v4 198 51 100 7,40002⟩
def awayMapped : SocketAddr := ⟨mapped away.ip,away.port⟩

/- The timer's turn three seconds in, after a console command. -/
def tickAfter (cmd : List String) : Round :=
  ⟨.tick,3000000000,true,3000000000,checkCmd cmd,[],3000000000,1800000⟩

/- Blocked during the session, the end that arrived first goes on being relayed, and so does an end
that arrived in mapped form; what a blacklisted end sends is not slowed down. -/
theorem endsMissed : ¬ ListRule ⟨home,away⟩ 0 (.start ⟨∅,∅⟩ 0) [tickAfter ["Ba","203.0.113.5"]] ∧
    ¬ ListRule ⟨home,awayMapped⟩ 0 (.start ⟨∅,∅⟩ 0) [tickAfter ["Ba","198.51.100.7"]] ∧
    ¬ ListRule ⟨home,away⟩ 0 (.start ⟨∅,∅⟩ 0)
      [tickAfter ["ba","203.0.113.5"],⟨.recv .peer (some [1]),3100000000,true,3100000000,[],[],0,0⟩] := by
  refine ⟨fun rule => ?_,fun rule => ?_,fun rule => ?_⟩
  · exact absurd (rule.refused [] _ [] rfl (by decide +kernel) (by decide +kernel)).1 (by decide +kernel)
  · exact absurd (rule.refused [] _ [] rfl (by decide +kernel) (by decide +kernel)).1 (by decide +kernel)
  · have slowed := rule.limited [] _ [] _ [] rfl (by decide +kernel) (by decide +kernel) trivial .single 8 (by decide +kernel)
    exact absurd slowed (by decide)

end OpenuuServer.RelayLists
