import OpenuuServer.FixedWindow
import OpenuuServer.RendezvousService

/-! The request limits of the account server. The handlers of logins and of audit records each keep
a table of the addresses that were heard of within a minute. -/
namespace OpenuuServer.RequestLimits
open FixedWindow
open IpText (IpAddr)
open RendezvousServer (retain lookupRetain)
open RendezvousService (lookupInserted)

/- Since when, and how many requests. -/
abbrev Entry := Nat × UInt32

abbrev Rates := AList fun _ : IpAddr => Entry

def Entry.current (now : Nat) (e : Entry) : Bool := now - e.1 < 60

def current (now : Nat) (rates : Rates) : Rates := retain (Entry.current now) rates

def limited (limit : UInt32) (now : Nat) (ip : IpAddr) (rates : Rates) : Bool × Rates :=
  let rates := current now rates
  if 10000 ≤ rates.entries.length ∧ ip ∉ rates then (true,rates)
  else
    let entry : Entry := (rates.lookup ip).getD (now,0)
    let entry : Entry := (entry.1,entry.2 + 1)
    (decide (limit < entry.2),rates.insert ip entry)

def perMinute : UInt32 := 60

/- What `login` begins with, once the body is found to be small enough. -/
def loginLimited (now : Nat) (ip : IpAddr) (attempts : Rates) : Bool × Rates := limited 10 now ip attempts

def overLimit (now : Nat) (ip : IpAddr) (auditRate : Rates) : Bool × Rates := limited perMinute now ip auditRate

inductive Handler where
  | login
  | audit

def Handler.limit : Handler → UInt32
  | .login => 10
  | .audit => perMinute

def Handler.limited : Handler → Nat → IpAddr → Rates → Bool × Rates
  | .login => loginLimited
  | .audit => overLimit

structure Request where
  now : Nat
  ip : IpAddr

section Steps
variable {h : Handler} {rates rates' : Rates} {r : Request} {ip : IpAddr}

def Request.refused (h : Handler) (rates : Rates) (r : Request) : Bool := (h.limited r.now r.ip rates).1

def Request.after (h : Handler) (rates : Rates) (r : Request) : Rates := (h.limited r.now r.ip rates).2

/- The table is full, and the address is not in it. -/
def Request.crowded (rates : Rates) (r : Request) : Bool :=
  decide (10000 ≤ (current r.now rates).entries.length) && decide (r.ip ∉ current r.now rates)

def Request.entry (rates : Rates) (r : Request) : Entry := ((current r.now rates).lookup r.ip).getD (r.now,0)

theorem currentLookup (now : Nat) (rates : Rates) (ip : IpAddr) :
    (current now rates).lookup ip = (rates.lookup ip).filter (Entry.current now) := lookupRetain _ _ _

theorem handlerLimited (h : Handler) (now : Nat) (ip : IpAddr) (rates : Rates) :
    h.limited now ip rates = limited h.limit now ip rates := by
  cases h <;> rfl

theorem crowdedOut (full : r.crowded rates = true) : r.refused h rates = true ∧ r.after h rates = current r.now rates := by
  have both : 10000 ≤ (current r.now rates).entries.length ∧ r.ip ∉ current r.now rates := by
    simpa [Request.crowded] using full
  rw [Request.refused,Request.after,handlerLimited]
  unfold limited
  rw [if_pos both]
  exact ⟨rfl,rfl⟩

theorem counted (room : r.crowded rates = false) : r.refused h rates = decide (h.limit < (r.entry rates).2 + 1) ∧
    r.after h rates = (current r.now rates).insert r.ip ((r.entry rates).1,(r.entry rates).2 + 1) := by
  have apart : ¬ (10000 ≤ (current r.now rates).entries.length ∧ r.ip ∉ current r.now rates) := by
    simpa [Request.crowded] using room
  rw [Request.refused,Request.after,handlerLimited]
  unfold limited
  rw [if_neg apart]
  exact ⟨rfl,rfl⟩

/- What a request leaves of the entries. -/
theorem lookupAfter (ip : IpAddr) : (r.after h rates).lookup ip =
    if r.crowded rates = false ∧ ip = r.ip then some ((r.entry rates).1,(r.entry rates).2 + 1)
    else (rates.lookup ip).filter (Entry.current r.now) := by
  cases full : r.crowded rates with
  | true => rw [(crowdedOut full).2,currentLookup]; simp
  | false => rw [(counted full).2,lookupInserted,currentLookup]; simp

end Steps

section Runs
variable {h : Handler} {rates rates' : Rates} {ip : IpAddr} {rs : List Request}

def served (h : Handler) (rates : Rates) (rs : List Request) : Rates := rs.foldl (Request.after h) rates

/- When those requests were made that are chosen for what they find. -/
def chosen (h : Handler) (p : Rates → Request → Bool) (rates : Rates) : List Request → List Nat
  | [] => []
  | r :: rs => if p rates r then r.now :: chosen h p (r.after h rates) rs else chosen h p (r.after h rates) rs

/- The requests of an address, other than those that found the table full. -/
def kept (h : Handler) (ip : IpAddr) (rates : Rates) (rs : List Request) : List Nat :=
  chosen h (fun rates r => decide (r.ip = ip) && !r.crowded rates) rates rs

def letThrough (h : Handler) (ip : IpAddr) (rates : Rates) (rs : List Request) : List Nat :=
  chosen h (fun rates r => decide (r.ip = ip) && !r.refused h rates) rates rs

/- What the requests of an address are told. -/
def verdicts (h : Handler) (ip : IpAddr) (rates : Rates) : List Request → List Bool
  | [] => []
  | r :: rs =>
    if r.ip = ip then r.refused h rates :: verdicts h ip (r.after h rates) rs else verdicts h ip (r.after h rates) rs

/- No request of the address finds the table full. -/
def Roomy (h : Handler) (ip : IpAddr) (rates : Rates) : List Request → Prop
  | [] => True
  | r :: rs => (r.ip = ip → r.crowded rates = false) ∧ Roomy h ip (r.after h rates) rs

/- No counter is at its end when a request is counted. -/
def Counts (h : Handler) (rates : Rates) : List Request → Prop
  | [] => True
  | r :: rs => (r.entry rates).2 ≠ 4294967295 ∧ Counts h (r.after h rates) rs

def Entry.window (e : Entry) : Window := ⟨e.1,e.2.toNat⟩

/- The limit over a run of requests. -/
structure Windowed (h : Handler) (rs : List Request) : Prop where
  -- the table has the windows that are still open
  opened : ∀ now, (∀ r ∈ rs, r.now ≤ now) → ∀ ip, ((current now (served h ∅ rs)).lookup ip).map Entry.window =
    (window 60 (kept h ip ∅ rs)).filter (Window.current 60 now)
  verdict : ∀ before r after, rs = before ++ r :: after → (r.refused h (served h ∅ before) = false ↔
    r.crowded (served h ∅ before) = false ∧ ∀ w, window 60 (kept h r.ip ∅ before) = some w → w.current 60 r.now = true →
      w.count < h.limit.toNat)
  alone : ∀ ip, Roomy h ip ∅ rs → verdicts h ip ∅ rs = verdicts h ip ∅ (rs.filter fun r => r.ip = ip)
  size : (served h ∅ rs).entries.length ≤ 10000
  burst : ∀ ip s, (letThrough h ip ∅ rs).countP (fun t => decide (s ≤ t ∧ t < s + 60)) ≤ 2 * h.limit.toNat - 1

theorem servedLast (r : Request) : served h rates (rs ++ [r]) = r.after h (served h rates rs) := by simp [served]

theorem chosenLast (p : Rates → Request → Bool) (r : Request) : chosen h p rates (rs ++ [r]) =
    if p (served h rates rs) r then chosen h p rates rs ++ [r.now] else chosen h p rates rs := by
  induction rs generalizing rates with
  | nil =>
    rw [List.nil_append,chosen,served,List.foldl_nil]
    rfl
  | cons first rs ih =>
    rw [List.cons_append,chosen,chosen,ih,show served h rates (first :: rs) = served h (first.after h rates) rs from rfl]
    split
    · split <;> rfl
    · rfl

theorem countsAppend {after : List Request} :
    Counts h rates (rs ++ after) ↔ Counts h rates rs ∧ Counts h (served h rates rs) after := by
  induction rs generalizing rates with
  | nil => simp [Counts,served]
  | cons first rs ih =>
    simp only [List.cons_append,Counts,ih,and_assoc]
    rfl

theorem chosenSublist (p : Rates → Request → Bool) : (chosen h p rates rs).Sublist (rs.map Request.now) := by
  induction rs generalizing rates with
  | nil => exact .slnil
  | cons r rs ih =>
    rw [chosen,List.map_cons]
    split
    · exact ih.cons_cons _
    · exact ih.cons _

abbrev Ordered (rs : List Request) : Prop := rs.Pairwise fun r r' => r.now ≤ r'.now

theorem keptOrdered (ordered : Ordered rs) : (kept h ip rates rs).Pairwise (· ≤ ·) :=
  (List.pairwise_map.mpr ordered).sublist (chosenSublist _)

/- An entry that is still open later is open now. -/
theorem filterTwice {now later : Nat} (after : now ≤ later) (o : Option Entry) :
    (o.filter (Entry.current now)).filter (Entry.current later) = o.filter (Entry.current later) := by
  cases o with
  | none => rfl
  | some e =>
    cases here : e.current now with
    | true => rw [Option.filter_some,if_pos here]
    | false =>
      have past : ¬ e.current later = true := by
        rw [Entry.current,decide_eq_false_iff_not] at here
        rw [Entry.current,decide_eq_true_eq]
        omega
      rw [Option.filter_some,if_neg (Bool.eq_false_iff.mp here),Option.filter_some,if_neg past]
      rfl

theorem windowOpen (now : Nat) (o : Option Entry) : (o.map Entry.window).filter (Window.current 60 now) =
    (o.filter (Entry.current now)).map Entry.window := by
  cases o with
  | none => rfl
  | some e =>
    rw [Option.map_some,Option.filter_some,Option.filter_some,show Window.current 60 now e.window = e.current now from rfl]
    split <;> rfl

theorem stillOpen {now later : Nat} (after : now ≤ later) (o : Option Entry) :
    ((o.filter (Entry.current now)).map Entry.window).filter (Window.current 60 later) =
      (o.map Entry.window).filter (Window.current 60 later) := by rw [windowOpen,windowOpen,filterTwice after]

/- Counting a request in the table is counting it in the window. -/
theorem entryJoined {r : Request} {w : Option Window} (low : (r.entry rates).2 ≠ 4294967295)
    (agrees : ((rates.lookup r.ip).map Entry.window).filter (Window.current 60 r.now) = w.filter (Window.current 60 r.now)) :
    Entry.window ((r.entry rates).1,(r.entry rates).2 + 1) = joined 60 w r.now := by
  have one : ((r.entry rates).2 + 1).toNat = (r.entry rates).2.toNat + 1 := by
    have less := UInt32.toNat_lt (r.entry rates).2
    have limit : (r.entry rates).2.toNat ≠ 4294967295 := fun same => low (UInt32.toNat_inj.mp same)
    rw [UInt32.toNat_add]
    exact Nat.mod_eq_of_lt (by simp; omega)
  rw [windowOpen,← currentLookup] at agrees
  rw [joined,← agrees,Entry.window,one]
  unfold Request.entry
  cases (current r.now rates).lookup r.ip with
  | none => rfl
  | some e => rfl

/- The table holds of every address the window its own requests opened, as long as that matters. -/
theorem agreeing (ordered : Ordered rs) (counts : Counts h ∅ rs) : ∀ now, (∀ r ∈ rs, r.now ≤ now) → ∀ ip,
    (((served h ∅ rs).lookup ip).map Entry.window).filter (Window.current 60 now) =
      (window 60 (kept h ip ∅ rs)).filter (Window.current 60 now) := by
  induction rs using List.reverseRecOn with
  | nil => exact fun _ _ _ => rfl
  | append_singleton rs r ih =>
    intro now late ip
    obtain ⟨before,-,past⟩ := List.pairwise_append.mp ordered
    obtain ⟨earlier,low,-⟩ := countsAppend.mp counts
    have after : r.now ≤ now := late r (by simp)
    rw [servedLast,lookupAfter,kept,chosenLast]
    by_cases mine : r.crowded (served h ∅ rs) = false ∧ ip = r.ip
    · obtain ⟨room,rfl⟩ := mine
      rw [if_pos ⟨room,rfl⟩,if_pos (by simp [room])]
      rw [Option.map_some,entryJoined low (ih before earlier r.now (fun x member => past x member r (.head _)) r.ip),windowLast]
      rfl
    · have other : ¬ (decide (r.ip = ip) && !r.crowded (served h ∅ rs)) = true := by
        simp only [Bool.and_eq_true,decide_eq_true_eq,Bool.not_eq_true']
        exact fun both => mine ⟨both.2,both.1.symm⟩
      rw [if_neg mine,if_neg other,stillOpen after]
      exact ih before earlier now (fun x member => late x (List.mem_append_left _ member)) ip

/- A request is let through by its window, or for want of one. -/
theorem refusedJoined {r : Request} (room : r.crowded rates = false) {w : Option Window} (low : (r.entry rates).2 ≠ 4294967295)
    (agrees : ((rates.lookup r.ip).map Entry.window).filter (Window.current 60 r.now) = w.filter (Window.current 60 r.now)) :
    r.refused h rates = false ↔ (joined 60 w r.now).count ≤ h.limit.toNat := by
  rw [(counted room).1,← entryJoined low agrees,decide_eq_false_iff_not,UInt32.lt_iff_toNat_lt,Nat.not_lt]
  rfl

theorem verdictKept {r : Request} (ordered : Ordered (rs ++ [r])) (counts : Counts h ∅ (rs ++ [r])) :
    r.refused h (served h ∅ rs) = false ↔ r.crowded (served h ∅ rs) = false ∧
      grants 60 h.limit.toNat (kept h r.ip ∅ rs) r.now = true := by
  obtain ⟨before,-,past⟩ := List.pairwise_append.mp ordered
  obtain ⟨earlier,low,-⟩ := countsAppend.mp counts
  cases full : r.crowded (served h ∅ rs) with
  | true => simp [(crowdedOut full).1]
  | false =>
    have agrees := agreeing before earlier r.now (fun x member => past x member r (.head _)) r.ip
    rw [refusedJoined full low agrees,grants,decide_eq_true_eq]
    simp

theorem letThroughGranted (ordered : Ordered rs) (counts : Counts h ∅ rs) (ip : IpAddr) :
    letThrough h ip ∅ rs = granted 60 h.limit.toNat (kept h ip ∅ rs) := by
  induction rs using List.reverseRecOn with
  | nil => rfl
  | append_singleton rs r ih =>
    have verdict := verdictKept ordered counts
    obtain ⟨before,-,-⟩ := List.pairwise_append.mp ordered
    have rest := ih before (countsAppend.mp counts).1
    rw [letThrough] at rest ⊢
    rw [chosenLast,rest,kept,kept,chosenLast,← kept]
    by_cases mine : r.ip = ip
    · subst mine
      cases full : r.crowded (served h ∅ rs) with
      | true => simp [(crowdedOut full).1]
      | false =>
        rw [full] at verdict
        simp only [decide_true,Bool.true_and,Bool.not_false,if_true,grantedLast]
        cases allowed : grants 60 h.limit.toNat (kept h r.ip ∅ rs) r.now with
        | true => rw [verdict.mpr ⟨rfl,allowed⟩]; rfl
        | false =>
          have refused : r.refused h (served h ∅ rs) = true := by
            by_contra wrong
            cases allowed.symm.trans (verdict.mp (Bool.eq_false_iff.mpr wrong)).2
          rw [refused]
          rfl
    · simp [mine]

theorem insertedLength (ip : IpAddr) (e : Entry) :
    (rates.insert ip e).entries.length = if ip ∈ rates then rates.entries.length else rates.entries.length + 1 := by
  have keys : (rates.insert ip e).entries.length = (rates.keys.erase ip).length + 1 := by
    rw [← List.length_map (f := Sigma.fst)]
    change (AList.keys (rates.insert ip e)).length = _
    rw [AList.keys_insert]
    rfl
  have same : rates.keys.length = rates.entries.length := List.length_map _
  rw [keys]
  split
  · rename_i member
    rw [List.length_erase_of_mem (AList.mem_keys.mp member),same]
    have some : 0 < rates.keys.length := List.length_pos_of_mem (AList.mem_keys.mp member)
    omega
  · rename_i apart
    rw [List.erase_of_not_mem fun member => apart (AList.mem_keys.mpr member),same]

theorem sizeAfter (r : Request) (few : rates.entries.length ≤ 10000) : (r.after h rates).entries.length ≤ 10000 := by
  have fewer : (current r.now rates).entries.length ≤ rates.entries.length := List.length_filter_le _ _
  cases full : r.crowded rates with
  | true =>
    rw [(crowdedOut full).2]
    exact Nat.le_trans fewer few
  | false =>
    rw [(counted full).2,insertedLength]
    split
    · exact Nat.le_trans fewer few
    · rename_i apart
      have room : ¬ 10000 ≤ (current r.now rates).entries.length := by
        intro many
        simp [Request.crowded,many,apart] at full
      omega

theorem sizeServed (few : rates.entries.length ≤ 10000) : (served h rates rs).entries.length ≤ 10000 := by
  induction rs generalizing rates with
  | nil => exact few
  | cons r rs ih => exact ih (sizeAfter r few)

/- Two tables that agree on an address, the second of which has no other. -/
structure Twin (ip : IpAddr) (since : Nat) (rates rates' : Rates) : Prop where
  same : ∀ now, since ≤ now → (current now rates).lookup ip = (current now rates').lookup ip
  only : ∀ other, other ≠ ip → rates'.lookup other = none

/- A table with one address has room for it. -/
theorem twinRoom {r : Request} {since : Nat} (twin : Twin r.ip since rates rates') : r.crowded rates' = false := by
  rw [Request.crowded,Bool.and_eq_false_iff,decide_eq_false_iff_not,decide_eq_false_iff_not,Decidable.not_not]
  by_cases member : r.ip ∈ current r.now rates'
  · exact .inr member
  · have none : (current r.now rates').entries = [] := by
      rw [List.eq_nil_iff_forall_not_mem]
      rintro ⟨other,e⟩ inside
      have found : (current r.now rates').lookup other = some e := AList.mem_lookup_iff.mpr inside
      by_cases same : other = r.ip
      · subst same
        exact member (AList.lookup_isSome.mp (by rw [found]; rfl))
      · rw [currentLookup,twin.only other same] at found
        cases found
    exact .inl (by rw [none]; decide)

theorem twinAfter {r : Request} {since : Nat} (twin : Twin r.ip since rates rates') (late : since ≤ r.now)
    (room : r.crowded rates = false) :
    r.refused h rates = r.refused h rates' ∧ Twin r.ip r.now (r.after h rates) (r.after h rates') := by
  have room' : r.crowded rates' = false := twinRoom twin
  have entry : r.entry rates = r.entry rates' := by rw [Request.entry,Request.entry,twin.same r.now late]
  refine ⟨by rw [(counted room).1,(counted room').1,entry],fun now after => ?_,fun other apart => ?_⟩
  · rw [currentLookup,currentLookup,lookupAfter,lookupAfter,if_pos ⟨room,rfl⟩,if_pos ⟨room',rfl⟩,entry]
  · rw [lookupAfter,if_neg fun both => apart both.2,twin.only other apart]
    rfl

theorem twinOther {r : Request} {since : Nat} (twin : Twin ip since rates rates') (late : since ≤ r.now) (other : r.ip ≠ ip) :
    Twin ip r.now (r.after h rates) rates' := by
  refine ⟨fun now after => ?_,twin.only⟩
  rw [← twin.same now (Nat.le_trans late after),currentLookup,lookupAfter,if_neg fun both => other both.2.symm,
    filterTwice after,currentLookup]

theorem verdictsAlone {since : Nat} (ordered : Ordered rs) (late : ∀ r ∈ rs, since ≤ r.now) (twin : Twin ip since rates rates')
    (roomy : Roomy h ip rates rs) : verdicts h ip rates rs = verdicts h ip rates' (rs.filter fun r => r.ip = ip) := by
  induction rs generalizing rates rates' since with
  | nil => rfl
  | cons r rs ih =>
    obtain ⟨past,rest⟩ := List.pairwise_cons.mp ordered
    by_cases mine : r.ip = ip
    · subst mine
      obtain ⟨same,next⟩ := twinAfter (h := h) twin (late r (.head _)) (roomy.1 rfl)
      rw [List.filter_cons_of_pos (by simp),verdicts,verdicts,if_pos rfl,if_pos rfl,same]
      exact congrArg _ (ih rest past next roomy.2)
    · rw [List.filter_cons_of_neg (by simpa using mine),verdicts,if_neg mine]
      exact ih rest past (twinOther twin (late r (.head _)) mine) roomy.2

/- As long as no counter is at its end, a limit works by the windows of each address. -/
theorem limitedByWindow (ordered : Ordered rs) (counts : Counts h ∅ rs) : Windowed h rs where
  opened now late ip := by
    rw [currentLookup,← windowOpen]
    exact agreeing ordered counts now late ip
  verdict before r after parts := by
    subst parts
    have prefixed : before ++ r :: after = (before ++ [r]) ++ after := by simp
    rw [prefixed] at ordered counts
    rw [verdictKept (List.pairwise_append.mp ordered).1 (countsAppend.mp counts).1,grantsIff (by cases h <;> decide)]
  alone ip roomy := verdictsAlone ordered (fun _ _ => Nat.zero_le _) ⟨fun _ _ => rfl,fun _ _ => rfl⟩ roomy
  size := sizeServed (Nat.zero_le _)
  burst ip s := by
    rw [letThroughGranted ordered counts]
    exact grantedBound (by cases h <;> decide) (by decide) (keptOrdered ordered) s

end Runs

section Concrete

def visitor (now : Nat) : Request := ⟨now,.v4 203 0 113 5⟩

/- What any number of requests in one second leave behind. -/
structure Repeated (h : Handler) (n : Nat) : Prop where
  twin : Twin (visitor 0).ip 0 (served h ∅ (List.replicate n (visitor 0))) (served h ∅ (List.replicate n (visitor 0)))
  entry : (visitor 0).entry (served h ∅ (List.replicate n (visitor 0))) = (0,UInt32.ofNat n)
  times : kept h (visitor 0).ip ∅ (List.replicate n (visitor 0)) = List.replicate n 0

theorem repeated (h : Handler) (n : Nat) : Repeated h n := by
  induction n with
  | zero => exact ⟨⟨fun _ _ => rfl,fun _ _ => rfl⟩,rfl,rfl⟩
  | succ n ih =>
    have room := twinRoom ih.twin
    have next := (twinAfter (h := h) ih.twin (Nat.le_refl 0) room).2
    refine ⟨?_,?_,?_⟩
    · rw [List.replicate_succ',servedLast]
      exact next
    · rw [List.replicate_succ',servedLast,Request.entry,currentLookup,lookupAfter,if_pos ⟨room,rfl⟩,ih.entry,UInt32.ofNat_add]
      rfl
    · rw [List.replicate_succ',kept,chosenLast,← kept,ih.times,room]
      exact (List.replicate_succ' ..).symm

theorem windowRepeated (n : Nat) : window 60 (List.replicate (n + 1) 0) = some ⟨0,n + 1⟩ := by
  induction n with
  | zero => rfl
  | succ n ih =>
    rw [List.replicate_succ',windowLast,ih]
    rfl

/- The counter starts again from zero. -/
theorem wrapped {h : Handler} {n : Nat} (full : n = 4294967294) : ¬ Windowed h (List.replicate (n + 2) (visitor 0)) := by
  intro windowed
  have parts : List.replicate (n + 2) (visitor 0) = List.replicate (n + 1) (visitor 0) ++ visitor 0 :: [] :=
    List.replicate_succ' ..
  have verdict := windowed.verdict _ _ _ parts
  have run := repeated h (n + 1)
  have room := twinRoom run.twin
  have allowed : (visitor 0).refused h (served h ∅ (List.replicate (n + 1) (visitor 0))) = false := by
    rw [(counted room).1,run.entry,full]
    cases h <;> decide
  have few : n + 1 < h.limit.toNat := (verdict.mp allowed).2 ⟨0,n + 1⟩ (by rw [run.times,windowRepeated]) rfl
  have small : h.limit.toNat ≤ 60 := by cases h <;> decide
  omega

/- The 2^32nd request of a second is let through. -/
theorem counterWraps : ¬ Windowed .login (List.replicate (4294967294 + 2) (visitor 0)) ∧
    ¬ Windowed .audit (List.replicate (4294967294 + 2) (visitor 0)) := ⟨wrapped rfl,wrapped rfl⟩

/- The second request falls into the window of the first, the third opens the next one. -/
theorem visitsLimited : Windowed .login [visitor 0,visitor 59,visitor 60] ∧
    Windowed .audit [visitor 0,visitor 59,visitor 60] :=
  ⟨limitedByWindow (by decide) ⟨by decide,by decide,by decide,trivial⟩,
    limitedByWindow (by decide) ⟨by decide,by decide,by decide,trivial⟩⟩

end Concrete
end OpenuuServer.RequestLimits
