import Mathlib.Algebra.Ring.Nat
import Mathlib.Data.List.Basic
import Mathlib.Data.List.Induction
import Mathlib.Data.Nat.Notation
import Mathlib.Logic.Function.Basic

/-! The loop that relays two paired connections. Each turn serves what one of them received or a tick of
the timer, and then, a second or more after the last one, takes a sample of the traffic. Counters have
the width of `usize`, 32 bits on some of the machines the relay is built for. -/
namespace OpenuuServer.RelayLoop

abbrev Bytes := List UInt8

inductive Side
  | peer
  | stream
  deriving DecidableEq

inductive Message
  | binary (bytes : Bytes)
  | other

/- What the next item of a TCP or WebSocket stream is. -/
inductive Item
  | frame (bytes : Bytes)
  | message (m : Message)
  | error
  | finished

/- `StreamTrait::recv` -/
def recv : Item → Option (Except Unit Bytes)
  | .frame bytes => some (.ok bytes)
  | .message (.binary bytes) => some (.ok bytes)
  | .message .other => some (.ok [])
  | .error => some (.error ())
  | .finished => none

inductive Happening
  | arrives (side : Side) (item : Item) (sent : Bool)
  | tick (idle : Nat)

/- One turn: what is selected, the milliseconds since the last sample, the two lists and the start of the
downgrade check as a sample finds them. -/
structure Turn where
  happens : Happening
  clock : Nat
  blocked : Bool
  blacklisted : Bool
  startCheck : Nat

inductive Closing
  | ended
  | timeout
  | blocked
  | sendFailed (side : Side)
  | panicked
  deriving DecidableEq

/- What the three limiters have let through. -/
structure Limits where
  own : Nat
  blacklist : Nat
  shared : Nat

def Limits.consume (l : Limits) (slow : Bool) (nb : Nat) : Limits :=
  if slow then {l with blacklist := l.blacklist + nb, shared := l.shared + nb}
  else {l with own := l.own + nb, shared := l.shared + nb}

structure Usage where
  elapsed : Nat
  total : Nat
  highest : Nat
  speed : Nat

/- `written side` is what the other side has been sent of the chunks of `side`. -/
structure Relay where
  elapsed : Nat
  total : Nat
  totalS : Nat
  highestS : Nat
  downgrade : Bool
  blacked : Bool
  limits : Limits
  usage : Option Usage
  written : Side → List Bytes
  closed : Option Closing

def opened : Relay := ⟨0,0,0,0,false,false,⟨0,0,0⟩,none,fun _ => [],none⟩

section Loop
variable (w threshold : Nat)

/- Numbers of `usize` in a release build. -/
def wrap (n : Nat) : Nat := n % 2 ^ w

def count (s : Relay) (bytes : Bytes) : Relay :=
  let nb := wrap w (bytes.length * 8)
  {s with
    limits := s.limits.consume (s.blacked || s.downgrade) nb
    total := wrap w (s.total + nb)
    totalS := wrap w (s.totalS + nb)}

def accept (s : Relay) (side : Side) (bytes : Bytes) (sent : Bool) : Relay :=
  let s := count w s bytes
  if bytes ≠ [] then
    if sent then {s with written := Function.update s.written side (s.written side ++ [bytes])}
    else {s with closed := some (.sendFailed side)}
  else s

def react (s : Relay) : Happening → Relay
  | .arrives side item sent =>
    match recv item with
    | some (.ok bytes) => accept w s side bytes sent
    | _ => {s with closed := some .ended}
  | .tick idle => if idle > 30 then {s with closed := some .timeout} else s

/- The division panics on a zero divisor. -/
def divide (a n : Nat) : Option Nat := if n = 0 then none else some (a / n)

def sample (s : Relay) (t : Turn) : Relay :=
  let n := wrap w t.clock
  if n ≥ 1000 then
    if t.blocked then {s with closed := some .blocked}
    else
      match divide s.totalS n with
      | some speed =>
        let highestS := if speed > s.highestS then speed else s.highestS
        let elapsed := wrap w (s.elapsed + n)
        let s := {s with
          blacked := t.blacklisted, highestS := highestS, elapsed := elapsed, totalS := 0
          usage := some ⟨elapsed,s.total,highestS,speed⟩}
        if elapsed > t.startCheck ∧ s.downgrade = false ∧ s.total > wrap w (elapsed * threshold) then {s with downgrade := true}
        else s
      | none => {s with closed := some .panicked}
  else s

def step (s : Relay) (t : Turn) : Relay :=
  let s := react w s t.happens
  if s.closed = none then sample w threshold s t else s

/- The relay with what it received from each side and the values of `totalS` at its samples. -/
structure History where
  relay : Relay
  received : Side → List Bytes
  sampled : List Nat

def arrived (side : Side) : Happening → List Bytes
  | .arrives source item _ =>
    if source = side then
      match recv item with
      | some (.ok bytes) => [bytes]
      | _ => []
    else []
  | .tick _ => []

/- A sample is taken in the turn. -/
def Samples (s : Relay) (t : Turn) : Prop := (react w s t.happens).closed = none ∧ wrap w t.clock ≥ 1000 ∧ t.blocked = false
instance (s t) : Decidable (Samples w s t) := inferInstanceAs (Decidable (_ ∧ _))

def History.next (h : History) (t : Turn) : History :=
  if h.relay.closed = none then
    { relay := step w threshold h.relay t
      received := fun side => h.received side ++ arrived side t.happens
      sampled := h.sampled ++ if Samples w h.relay t then [(react w h.relay t.happens).totalS] else [] }
  else h

def history (turns : List Turn) : History := turns.foldl (History.next w threshold) ⟨opened,fun _ => [],[]⟩

section Phases
variable {w threshold}

/- What a selected event does. -/
inductive Reacted (w : Nat) (s : Relay) : Happening → Relay → Prop
  | ended {side : Side} {item : Item} {sent : Bool} (ceased : ∀ bytes, recv item ≠ some (.ok bytes)) :
      Reacted w s (.arrives side item sent) {s with closed := some .ended}
  | empty {side : Side} {item : Item} {sent : Bool} (got : recv item = some (.ok [])) :
      Reacted w s (.arrives side item sent) (count w s [])
  | written {side : Side} {item : Item} {bytes : Bytes} (got : recv item = some (.ok bytes)) (filled : bytes ≠ []) :
      Reacted w s (.arrives side item true)
        {count w s bytes with written := Function.update s.written side (s.written side ++ [bytes])}
  | failed {side : Side} {item : Item} {bytes : Bytes} (got : recv item = some (.ok bytes)) (filled : bytes ≠ []) :
      Reacted w s (.arrives side item false) {count w s bytes with closed := some (.sendFailed side)}
  | timeout {idle : Nat} : Reacted w s (.tick idle) {s with closed := some .timeout}
  | quiet {idle : Nat} : Reacted w s (.tick idle) s

theorem accepted (s : Relay) {side : Side} {item : Item} {bytes : Bytes} (sent : Bool) (got : recv item = some (.ok bytes)) :
    Reacted w s (.arrives side item sent) (accept w s side bytes sent) := by
  unfold accept
  dsimp only
  split
  · rename_i filled
    cases sent
    · exact .failed got filled
    · exact .written got filled
  · rename_i blank
    cases not_not.mp blank
    exact .empty got

theorem reacted (s : Relay) (h : Happening) : Reacted w s h (react w s h) := by
  cases h with
  | tick idle =>
    rw [react]
    split
    · exact .timeout
    · exact .quiet
  | arrives side item sent =>
    rw [react]
    split
    · rename_i bytes got
      exact accepted s sent got
    · rename_i ceased
      exact .ended ceased

/- What the end of a turn does. -/
inductive Sampled (w threshold : Nat) (s : Relay) (t : Turn) : Relay → Prop
  | early (soon : ¬ wrap w t.clock ≥ 1000) : Sampled w threshold s t s
  | blocked (due : wrap w t.clock ≥ 1000) (listed : t.blocked = true) : Sampled w threshold s t {s with closed := some .blocked}
  | taken (due : wrap w t.clock ≥ 1000) (unlisted : t.blocked = false) (highest speed : Nat) :
      Sampled w threshold s t {s with
        blacked := t.blacklisted, highestS := highest, elapsed := wrap w (s.elapsed + wrap w t.clock), totalS := 0
        usage := some ⟨wrap w (s.elapsed + wrap w t.clock),s.total,highest,speed⟩
        downgrade := s.downgrade || decide (wrap w (s.elapsed + wrap w t.clock) > t.startCheck ∧
          s.total > wrap w (wrap w (s.elapsed + wrap w t.clock) * threshold))}

theorem sampled (s : Relay) (t : Turn) : Sampled w threshold s t (sample w threshold s t) := by
  unfold sample
  dsimp only
  split
  · rename_i due
    split
    · rename_i listed
      exact .blocked due listed
    · rename_i unlisted
      have real : wrap w t.clock ≠ 0 := by omega
      rw [divide,if_neg real]
      dsimp only
      have taken := @Sampled.taken _ threshold s _ due (Bool.eq_false_iff.mpr unlisted)
        (if s.totalS / wrap w t.clock > s.highestS then s.totalS / wrap w t.clock else s.highestS) (s.totalS / wrap w t.clock)
      split
      · rename_i exceeds
        obtain ⟨late,fresh,above⟩ := exceeds
        rw [fresh,Bool.false_or,decide_eq_true ⟨late,above⟩] at taken
        exact taken
      · rename_i within
        cases already : s.downgrade
        · rw [already,Bool.false_or,decide_eq_false fun both => within ⟨both.1,already,both.2⟩] at taken
          exact taken
        · rw [already,Bool.true_or] at taken
          exact taken
  · rename_i soon
    exact .early soon

def History.react (w : Nat) (h : History) (t : Turn) : History :=
  ⟨RelayLoop.react w h.relay t.happens,fun side => h.received side ++ arrived side t.happens,h.sampled⟩

def History.sample (w threshold : Nat) (h : History) (t : Turn) : History :=
  ⟨RelayLoop.sample w threshold h.relay t,h.received,
    h.sampled ++ if wrap w t.clock ≥ 1000 ∧ t.blocked = false then [h.relay.totalS] else []⟩

theorem nextPhases (h : History) (t : Turn) : h.next w threshold t =
    if h.relay.closed = none then
      if (h.react w t).relay.closed = none then (h.react w t).sample w threshold t else h.react w t
    else h := by
  unfold History.next
  split
  · by_cases live : (RelayLoop.react w h.relay t.happens).closed = none
    · have still : (h.react w t).relay.closed = none := live
      have samples : Samples w h.relay t ↔ wrap w t.clock ≥ 1000 ∧ t.blocked = false := ⟨And.right,fun both => ⟨live,both⟩⟩
      rw [if_pos still,step]
      simp only [if_pos live,samples]
      rfl
    · have ceased : ¬ (h.react w t).relay.closed = none := live
      have none : ¬ Samples w h.relay t := fun samples => live samples.1
      rw [if_neg ceased,if_neg none,List.append_nil,step]
      simp only [if_neg live]
      rfl
  · rfl

/- What both phases of a turn keep, a turn keeps. -/
theorem nextKeeps {P : History → Prop} {h : History} {t : Turn}
    (first : h.relay.closed = none → P h → P (h.react w t))
    (second : (h.react w t).relay.closed = none → P (h.react w t) → P ((h.react w t).sample w threshold t))
    (holds : P h) : P (h.next w threshold t) := by
  rw [nextPhases]
  split
  · rename_i live
    split
    · rename_i still
      exact second still (first live holds)
    · exact first live holds
  · exact holds

theorem historyLast (turns : List Turn) (t : Turn) :
    history w threshold (turns ++ [t]) = (history w threshold turns).next w threshold t := by
  rw [history,List.foldl_append]
  rfl


/- Each side has been sent what the other one sent, but for a chunk whose sending failed. -/
def Delivered (h : History) (side : Side) : Prop :=
  if h.relay.closed = some (.sendFailed side) then
    ∃ chunk, chunk ≠ [] ∧ (h.received side).getLast? = some chunk ∧
      (h.received side).filter (· ≠ []) = h.relay.written side ++ [chunk]
  else (h.received side).filter (· ≠ []) = h.relay.written side

def History.bytes (h : History) : Nat := (h.received .peer).flatten.length + (h.received .stream).flatten.length

/- What holds in every run, whatever the counters come to. -/
structure Kept (w : Nat) (h : History) : Prop where
  delivered : ∀ side, Delivered h side
  total : h.relay.total = 8 * h.bytes % 2 ^ w
  split : h.relay.total = (h.sampled.sum + h.relay.totalS) % 2 ^ w
  divided : h.relay.closed ≠ some .panicked
  limited : h.relay.limits.own + h.relay.limits.blacklist = h.relay.limits.shared

theorem arrivedGot {item : Item} {bytes : Bytes} (got : recv item = some (.ok bytes)) (side source : Side) (sent : Bool) :
    arrived side (.arrives source item sent) = if source = side then [bytes] else [] := by
  rw [arrived,got]

theorem arrivedOver {item : Item} (ceased : ∀ bytes, recv item ≠ some (.ok bytes)) (side source : Side) (sent : Bool) :
    arrived side (.arrives source item sent) = [] := by
  rw [arrived]
  split
  · split
    · rename_i bytes got
      exact absurd got (ceased bytes)
    · rfl
  · rfl

/- The bytes a turn adds. -/
theorem bytesArrive {h : History} {r : Relay} {source : Side} {bytes : Bytes} {item : Item} (got : recv item = some (.ok bytes))
    (sent : Bool) (l : List Nat) :
    History.bytes ⟨r,fun side => h.received side ++ arrived side (.arrives source item sent),l⟩ = h.bytes + bytes.length := by
  simp only [History.bytes,arrivedGot got,List.flatten_append,List.length_append]
  cases source
  · simp [Nat.add_right_comm]
  · simp [Nat.add_assoc]

theorem countTotal {s : Relay} {bytes : Bytes} : (count w s bytes).total = (s.total + 8 * bytes.length) % 2 ^ w := by
  simp only [count,wrap]
  rw [Nat.add_mod_mod,Nat.mul_comm]

theorem countTotalS {s : Relay} {bytes : Bytes} : (count w s bytes).totalS = (s.totalS + 8 * bytes.length) % 2 ^ w := by
  simp only [count,wrap]
  rw [Nat.add_mod_mod,Nat.mul_comm]

theorem consumeShared {l : Limits} (same : l.own + l.blacklist = l.shared) (slow : Bool) (nb : Nat) :
    (l.consume slow nb).own + (l.consume slow nb).blacklist = (l.consume slow nb).shared := by
  unfold Limits.consume
  split <;> dsimp only <;> omega

theorem countKept {h : History} (kept : Kept w h) (bytes : Bytes) :
    (count w h.relay bytes).total = 8 * (h.bytes + bytes.length) % 2 ^ w ∧
    (count w h.relay bytes).total = (h.sampled.sum + (count w h.relay bytes).totalS) % 2 ^ w := by
  have total : (count w h.relay bytes).total = 8 * (h.bytes + bytes.length) % 2 ^ w := by
    rw [countTotal,kept.total,Nat.mod_add_mod,Nat.mul_add]
  refine ⟨total,?_⟩
  rw [countTotal,countTotalS,kept.split,Nat.mod_add_mod,Nat.add_mod_mod,Nat.add_assoc]

theorem deliveredEven {h : History} {side : Side} (other : h.relay.closed ≠ some (.sendFailed side))
    (even : (h.received side).filter (· ≠ []) = h.relay.written side) : Delivered h side := by
  rw [Delivered,if_neg other]
  exact even

theorem evenOpen {h : History} (live : h.relay.closed = none) (kept : Kept w h) (side : Side) :
    (h.received side).filter (· ≠ []) = h.relay.written side := by
  have delivered := kept.delivered side
  rw [Delivered,live,if_neg (fun same => nomatch same)] at delivered
  exact delivered

theorem filterFilled {bytes : Bytes} (filled : bytes ≠ []) : [bytes].filter (· ≠ []) = [bytes] := by simp [filled]

theorem openOther {r : Relay} (live : r.closed = none) (side : Side) : r.closed ≠ some (.sendFailed side) :=
  fun same => nomatch live.symm.trans same

theorem keptReacted {h : History} {e : Happening} {r : Relay} (live : h.relay.closed = none) (kept : Kept w h)
    (here : Reacted w h.relay e r) : Kept w ⟨r,fun side => h.received side ++ arrived side e,h.sampled⟩ := by
  have even := evenOpen live kept
  cases here with
  | ended ceased =>
    simp only [arrivedOver ceased,List.append_nil]
    exact ⟨fun side => deliveredEven (fun same => nomatch same) (even side),kept.total,kept.split,
      (fun same => nomatch same),kept.limited⟩
  | @empty source item sent got =>
    obtain ⟨total,split⟩ := countKept kept []
    refine ⟨fun side => deliveredEven (openOther live side) ?_,?_,split,kept.divided,consumeShared kept.limited _ _⟩
    · dsimp only
      rw [arrivedGot got,List.filter_append,even side]
      split <;> exact List.append_nil _
    · rw [bytesArrive got]
      exact total
  | @written source item bytes got filled =>
    obtain ⟨total,split⟩ := countKept kept bytes
    refine ⟨fun side => deliveredEven (openOther live side) ?_,?_,split,kept.divided,consumeShared kept.limited _ _⟩
    · dsimp only
      rw [arrivedGot got,List.filter_append,even side]
      by_cases same : source = side
      · subst same
        rw [if_pos rfl,Function.update_self,filterFilled filled]
      · rw [if_neg same,Function.update_of_ne (Ne.symm same)]
        exact List.append_nil _
    · rw [bytesArrive got]
      exact total
  | @failed source item bytes got filled =>
    obtain ⟨total,split⟩ := countKept kept bytes
    refine ⟨?_,?_,split,(fun same => nomatch same),consumeShared kept.limited _ _⟩
    · intro side
      by_cases same : source = side
      · subst same
        rw [Delivered,if_pos rfl]
        dsimp only
        rw [arrivedGot got,if_pos rfl,List.filter_append,even source,filterFilled filled]
        exact ⟨bytes,filled,List.getLast?_concat,rfl⟩
      · refine deliveredEven (fun closed => same (Closing.sendFailed.inj (Option.some.inj closed))) ?_
        dsimp only
        rw [arrivedGot got,if_neg same,List.append_nil]
        exact even side
    · rw [bytesArrive got]
      exact total
  | timeout =>
    simp only [arrived,List.append_nil]
    exact ⟨fun side => deliveredEven (fun same => nomatch same) (even side),kept.total,kept.split,
      (fun same => nomatch same),kept.limited⟩
  | quiet =>
    simp only [arrived,List.append_nil]
    exact kept

theorem keptSampled {h : History} {t : Turn} {r : Relay} (live : h.relay.closed = none) (kept : Kept w h)
    (here : Sampled w threshold h.relay t r) :
    Kept w ⟨r,h.received,h.sampled ++ if wrap w t.clock ≥ 1000 ∧ t.blocked = false then [h.relay.totalS] else []⟩ := by
  have even := evenOpen live kept
  cases here with
  | early soon =>
    rw [if_neg (fun both => soon both.1),List.append_nil]
    exact kept
  | blocked due listed =>
    rw [if_neg (fun both => nomatch both.2.symm.trans listed),List.append_nil]
    exact ⟨fun side => deliveredEven (fun same => nomatch same) (even side),kept.total,kept.split,
      (fun same => nomatch same),kept.limited⟩
  | taken due unlisted highest speed =>
    rw [if_pos ⟨due,unlisted⟩]
    refine ⟨kept.delivered,kept.total,?_,kept.divided,kept.limited⟩
    dsimp only
    rw [List.sum_append,List.sum_singleton,Nat.add_zero]
    exact kept.split

theorem keptNext {h : History} (kept : Kept w h) (t : Turn) : Kept w (h.next w threshold t) :=
  nextKeeps (fun live kept => keptReacted live kept (reacted h.relay t.happens))
    (fun live kept => keptSampled live kept (sampled (h.react w t).relay t)) kept

theorem keptAll (turns : List Turn) : Kept w (history w threshold turns) := by
  induction turns using List.reverseRecOn with
  | nil => exact ⟨fun _ => rfl,rfl,rfl,(fun same => nomatch same),rfl⟩
  | append_singleton turns t ih =>
    rw [historyLast]
    exact keptNext ih t

/- `total` counts the bits of both sides, and the samples divide them. -/
def Counted (h : History) : Prop := h.relay.total = 8 * h.bytes ∧ h.sampled.sum + h.relay.totalS = h.relay.total

/- A sample has come to a larger average than the threshold, past the start of the check. -/
structure Earned (w threshold : Nat) (s s' : Relay) (t : Turn) : Prop where
  samples : Samples w s t
  late : s'.elapsed > t.startCheck
  above : s'.total > s'.elapsed * threshold

/- The counters of a turn have room: those a chunk is added to, and the product a sample compares. -/
structure Exact (w threshold : Nat) (s : Relay) (t : Turn) : Prop where
  counts : ∀ side item sent bytes, t.happens = .arrives side item sent → recv item = some (.ok bytes) →
    s.total + 8 * bytes.length < 2 ^ w
  compares : wrap w t.clock ≥ 1000 → t.blocked = false → s.downgrade = false →
    wrap w (s.elapsed + wrap w t.clock) > t.startCheck → wrap w (s.elapsed + wrap w t.clock) * threshold < 2 ^ w

theorem countedReacted {h : History} {e : Happening} {r : Relay} (counted : Counted h)
    (counts : ∀ side item sent bytes, e = .arrives side item sent → recv item = some (.ok bytes) →
      h.relay.total + 8 * bytes.length < 2 ^ w)
    (here : Reacted w h.relay e r) : Counted ⟨r,fun side => h.received side ++ arrived side e,h.sampled⟩ := by
  obtain ⟨total,split⟩ := counted
  have grown {side : Side} {item : Item} {sent : Bool} {bytes : Bytes} (same : e = .arrives side item sent)
      (got : recv item = some (.ok bytes)) :
      (count w h.relay bytes).total = 8 * (h.bytes + bytes.length) ∧
      h.sampled.sum + (count w h.relay bytes).totalS = (count w h.relay bytes).total := by
    have room := counts side item sent bytes same got
    rw [countTotal,countTotalS,Nat.mod_eq_of_lt room,Nat.mod_eq_of_lt (by omega)]
    omega
  cases here with
  | ended ceased =>
    simp only [Counted,arrivedOver ceased,List.append_nil]
    exact ⟨total,split⟩
  | empty got =>
    rw [Counted,bytesArrive got]
    exact grown rfl got
  | written got filled =>
    rw [Counted,bytesArrive got]
    exact grown rfl got
  | failed got filled =>
    rw [Counted,bytesArrive got]
    exact grown rfl got
  | timeout =>
    simp only [Counted,arrived,List.append_nil]
    exact ⟨total,split⟩
  | quiet =>
    simp only [Counted,arrived,List.append_nil]
    exact ⟨total,split⟩

theorem countedSampled {h : History} {t : Turn} {r : Relay} (counted : Counted h) (here : Sampled w threshold h.relay t r) :
    Counted ⟨r,h.received,h.sampled ++ if wrap w t.clock ≥ 1000 ∧ t.blocked = false then [h.relay.totalS] else []⟩ := by
  cases here with
  | early soon =>
    rw [if_neg (fun both => soon both.1),List.append_nil]
    exact counted
  | blocked due listed =>
    rw [if_neg (fun both => nomatch both.2.symm.trans listed),List.append_nil]
    exact counted
  | taken due unlisted highest speed =>
    rw [if_pos ⟨due,unlisted⟩]
    refine ⟨counted.1,?_⟩
    dsimp only
    rw [List.sum_append,List.sum_singleton,Nat.add_zero]
    exact counted.2

theorem countedNext {h : History} {t : Turn} (exact : h.relay.closed = none → Exact w threshold h.relay t) (counted : Counted h) :
    Counted (h.next w threshold t) :=
  nextKeeps (fun live counted => countedReacted counted (exact live).counts (reacted h.relay t.happens))
    (fun _ counted => countedSampled counted (sampled (h.react w t).relay t)) counted

theorem reactedFrame {s r : Relay} {e : Happening} (here : Reacted w s e r) :
    r.elapsed = s.elapsed ∧ r.downgrade = s.downgrade := by
  cases here <;> exact ⟨rfl,rfl⟩

/- A downgrade stays, and comes only from a sample that has earned it. -/
theorem downgradeNext (h : History) (t : Turn) :
    (h.relay.downgrade = true → (h.next w threshold t).relay.downgrade = true) ∧
    ((h.relay.closed = none → Exact w threshold h.relay t) → h.relay.downgrade = false →
      (h.next w threshold t).relay.downgrade = true → Earned w threshold h.relay (h.next w threshold t).relay t) := by
  obtain ⟨elapsed,downgrade⟩ := reactedFrame (reacted (w := w) h.relay t.happens)
  rw [nextPhases]
  split
  · rename_i live
    split
    · rename_i still
      have here := @sampled w threshold (h.react w t).relay t
      unfold History.sample
      revert here
      generalize RelayLoop.sample w threshold (h.react w t).relay t = r
      intro here
      cases here with
      | early soon =>
        refine ⟨fun before => downgrade.trans before,?_⟩
        intro _ before after
        exact nomatch before.symm.trans (downgrade.symm.trans after)
      | blocked due listed =>
        refine ⟨fun before => downgrade.trans before,?_⟩
        intro _ before after
        exact nomatch before.symm.trans (downgrade.symm.trans after)
      | taken due unlisted highest speed =>
        have same : (h.react w t).relay.elapsed = h.relay.elapsed := elapsed
        constructor
        · intro before
          exact (Bool.or_eq_true _ _).mpr (.inl (downgrade.trans before))
        · intro exact before after
          have fresh : (h.react w t).relay.downgrade = false := downgrade.trans before
          rw [fresh,Bool.false_or] at after
          obtain ⟨late,above⟩ := of_decide_eq_true after
          have room := (exact live).compares due unlisted before (same ▸ late)
          rw [← same] at room
          rw [wrap,Nat.mod_eq_of_lt room] at above
          exact ⟨⟨still,due,unlisted⟩,late,above⟩
    · refine ⟨fun before => downgrade.trans before,?_⟩
      intro _ before after
      exact nomatch before.symm.trans (downgrade.symm.trans after)
  · refine ⟨fun before => before,?_⟩
    intro _ before after
    exact nomatch before.symm.trans after

/- In every turn of the run that is served the counters have room. -/
def ExactRun (w threshold : Nat) (turns : List Turn) : Prop :=
  ∀ front t rest, turns = front ++ t :: rest → (history w threshold front).relay.closed = none →
    Exact w threshold (history w threshold front).relay t

theorem countedAll {turns : List Turn} (exact : ExactRun w threshold turns) : Counted (history w threshold turns) := by
  induction turns using List.reverseRecOn with
  | nil => exact ⟨rfl,rfl⟩
  | append_singleton turns t ih =>
    rw [historyLast]
    refine countedNext (exact turns t [] rfl) (ih ?_)
    intro front u rest same
    exact exact front u (rest ++ [t]) (by rw [same,List.append_assoc]; rfl)

end Phases

/- What a relay has done after its turns: all that each side sent is on its way, once and in order; the
counters agree; no division has failed; the last turn has kept a downgrade, or earned one. -/
structure Sound (turns : List Turn) : Prop where
  delivered : ∀ side, Delivered (history w threshold turns) side
  counted : Counted (history w threshold turns)
  divided : (history w threshold turns).relay.closed ≠ some .panicked
  stays : ∀ front t, turns = front ++ [t] → (history w threshold front).relay.downgrade = true →
    (history w threshold turns).relay.downgrade = true
  earned : ∀ front t, turns = front ++ [t] → (history w threshold front).relay.downgrade = false →
    (history w threshold turns).relay.downgrade = true →
    Earned w threshold (history w threshold front).relay (history w threshold turns).relay t

theorem relaySound (front rest : List Turn) (exact : ExactRun w threshold (front ++ rest)) : Sound w threshold front := by
  have before : ExactRun w threshold front := by
    intro first t later same
    exact exact first t (later ++ rest) (by rw [same,List.append_assoc]; rfl)
  have kept := @keptAll w threshold front
  refine ⟨kept.delivered,countedAll before,kept.divided,?_,?_⟩
  · rintro turns t rfl
    rw [historyLast]
    exact (downgradeNext _ t).1
  · rintro turns t rfl
    rw [historyLast]
    exact (downgradeNext _ t).2 (before turns t [] rfl)

end Loop

/- Two bytes in a second and a half, past the start of the check and above a threshold of nothing. -/
def burst : Turn := ⟨.arrives .peer (.frame [1,2]) true,1500,false,false,1000⟩

theorem burstSound : Sound 64 0 [burst] ∧ (history 64 0 [burst]).relay.downgrade = true := by
  refine ⟨relaySound 64 0 [burst] [] ?_,rfl⟩
  intro front t rest same _
  cases front with
  | nil =>
    cases same
    refine ⟨?_,fun _ _ _ _ => by decide⟩
    intro side item sent bytes arrives got
    cases arrives
    cases got
    decide
  | cons u front =>
    have lengths := congrArg List.length same
    simp at lengths

section Wrapping
variable {w threshold : Nat}

/- A chunk that is passed on between two samples. -/
theorem chunkPassed {h : History} (live : h.relay.closed = none) {bytes : Bytes} (filled : bytes ≠ []) {t : Turn}
    (happens : t.happens = .arrives .peer (.frame bytes) true) (soon : t.clock = 0) :
    (h.next w threshold t).relay.closed = none ∧ (h.next w threshold t).received .peer = h.received .peer ++ [bytes] ∧
    (h.next w threshold t).received .stream = h.received .stream := by
  have still : (h.react w t).relay.closed = none := by
    unfold History.react
    rw [happens]
    dsimp only [react,recv]
    rw [accept,if_pos filled,if_pos rfl]
    exact live
  have early : sample w threshold (h.react w t).relay t = (h.react w t).relay := by
    rw [sample,soon,wrap,Nat.zero_mod]
    exact if_neg (by decide)
  rw [nextPhases,if_pos live,if_pos still,History.sample,early]
  refine ⟨still,?_,?_⟩
  · rw [History.react,happens]
    rfl
  · rw [History.react,happens]
    exact List.append_nil _

end Wrapping

def chunk : Bytes := List.replicate 65536 0

def flood : Turn := ⟨.arrives .peer (.frame chunk) true,0,false,false,0⟩

theorem chunkFilled : chunk ≠ [] := List.ne_nil_of_length_pos (by rw [chunk,List.length_replicate]; decide)

theorem floodRun (n : Nat) : (history 32 0 (List.replicate n flood)).relay.closed = none ∧
    (history 32 0 (List.replicate n flood)).received .peer = List.replicate n chunk ∧
    (history 32 0 (List.replicate n flood)).received .stream = [] := by
  induction n with
  | zero => exact ⟨rfl,rfl,rfl⟩
  | succ n ih =>
    obtain ⟨live,peer,stream⟩ := ih
    obtain ⟨live',peer',stream'⟩ := @chunkPassed 32 0 _ live _ chunkFilled flood rfl rfl
    rw [List.replicate_succ',historyLast]
    refine ⟨live',?_,stream'.trans stream⟩
    rw [peer',peer,List.replicate_succ']

/- After 512 MiB from one side a 32-bit relay has counted nothing. -/
theorem bitsForgotten : (history 32 0 (List.replicate 8192 flood)).bytes = 536870912 ∧
    (history 32 0 (List.replicate 8192 flood)).relay.total = 0 ∧ ¬ Sound 32 0 (List.replicate 8192 flood) := by
  obtain ⟨_,peer,stream⟩ := floodRun 8192
  have bytes : (history 32 0 (List.replicate 8192 flood)).bytes = 536870912 := by
    rw [History.bytes,peer,stream,List.length_flatten,List.map_replicate,List.sum_replicate_nat,chunk,List.length_replicate]
    rfl
  have total : (history 32 0 (List.replicate 8192 flood)).relay.total = 0 := by
    have counted := (@keptAll 32 0 (List.replicate 8192 flood)).total
    rw [bytes] at counted
    exact counted.trans (by decide)
  refine ⟨bytes,total,?_⟩
  intro sound
  have counted := sound.counted.1
  rw [total,bytes] at counted
  cases counted

end OpenuuServer.RelayLoop
