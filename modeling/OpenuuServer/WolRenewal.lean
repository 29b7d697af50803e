import OpenuuServer.AccountWol

/-! Whether a queued wake job can always be delivered or replaced. `wake` keeps a job by the
database's comparison with the clock, `poll` hands it out by its own; here both are asked of one
store within one second. -/
namespace OpenuuServer.WolRenewal
open AtomicProgram UniqueTable AccountWol
open AccountStore hiding Op Resp exec

section Requests
variable (prim : Primitives)

/- What a request that has the store to itself for this second is answered. -/
def answerAt {β : Type} (p : Web β) (s : Store) : Except Refusal β := (p.run.run (exec prim) s).1

def Owns (s : Store) (token name : String) : Prop := answerAt prim (owner prim token) s = .ok name

def Helps (s : Store) (name target helper : String) : Prop :=
  ∃ state, answerAt prim (availability name target) s = .ok (state,some helper)

def queued : Refusal := ⟨429,"Wake request already queued"⟩

/- The ids of a poll that is not refused as such. -/
def WellFormed (id : String) (peers : List String) : Prop :=
  valid id = true ∧ peers.length ≤ 256 ∧ ∀ p ∈ peers, valid p = true

/- A poll by the helper of the job that lists its target hands the job out. -/
def Delivers (s : Store) (j : WolJob) : Prop :=
  ∀ token peers, Owns prim s token j.owner → WellFormed j.helper peers → j.target ∈ peers →
    ∃ ts, answerAt prim (poll prim token j.helper peers) s = .ok ts ∧ j.target ∈ ts

structure Renewable (s : Store) (token name target : String) : Prop where
  refused : answerAt prim (wake prim token target) s = .error queued →
    ∃ j ∈ s.jobs.rows, j.owner = name ∧ j.target = target ∧ Delivers prim s j
  always : ∀ j ∈ s.jobs.rows, j.owner = name → j.target = target →
    Delivers prim s j ∨ answerAt prim (wake prim token target) s = .ok "queued"

/- A job that expires in this very second, under ids that a poll can give. -/
def Lapsing (s : Store) (name target : String) : Prop :=
  ∃ j ∈ s.jobs.rows, j.owner = name ∧ j.target = target ∧ j.expires = s.now ∧
    valid j.helper = true ∧ valid j.target = true

instance (s : Store) (name target : String) : Decidable (Lapsing s name target) :=
  inferInstanceAs (Decidable (∃ j ∈ s.jobs.rows, _ ∧ _ ∧ _ ∧ _ ∧ _))

def Reads : Op → Prop
  | .account (.selectUser _) | .clock | .selectSeen _ _ | .selectHelpers _ _ => True
  | _ => False

theorem readsKeep {o : Op} (reads : Reads o) (s : Store) : (exec prim o s).2 = s := by
  cases o with
  | account o =>
    cases o with
    | selectUser h => rfl
    | _ => exact absurd reads id
  | clock | selectSeen owner id | selectHelpers owner target => rfl
  | _ => exact absurd reads id

theorem onwardReads {β γ : Type} {next : β → Prog Op Resp (Except Refusal γ)} (reads : ∀ value, (next value).Every Reads)
    (r : Except Refusal β) : (onward next r).Every Reads := by
  cases r with
  | ok value => exact reads value
  | error e => trivial

theorem queryReads {β γ : Type} {o : Op} (here : Reads o) (read : Resp o → Except DbError β) {f : β → Web γ}
    (later : ∀ value, (f value).run.Every Reads) : (query o read >>= f).run.Every Reads := by
  rw [webRun,queryRun]
  exact ⟨here,fun r => onwardReads later _⟩

theorem ownerReads (token : String) : (owner prim token).run.Every Reads := by
  change (embedded (user prim token).run >>= _).Every Reads
  rw [userTree]
  by_cases short : token.utf8ByteSize ≠ 64
  · rw [if_pos short]
    trivial
  · rw [if_neg short]
    refine ⟨trivial,fun r => ?_⟩
    match r with
    | .ok (some name) => trivial
    | .ok none => trivial
    | .error e => trivial

theorem availabilityReads (name target : String) : (availability name target).run.Every Reads := by
  refine queryReads (o := .selectSeen name target) trivial _ fun row => ?_
  cases row with
  | none => trivial
  | some seen =>
    refine ⟨trivial,fun now => ?_⟩
    change (if now - 30 ≤ seen then _ else _ : Web (String × Option String)).run.Every Reads
    split
    · trivial
    · refine queryReads (o := .selectHelpers name target) trivial _ fun helpers => ?_
      split <;> trivial

theorem readsRun {α : Type} {p : Prog Op Resp α} (reads : p.Every Reads) (s : Store) : (p.run (exec prim) s).2 = s :=
  runKeeps id (fun _ here s => readsKeep prim here s) reads s

/- A request that begins with one that only reads goes on from its answer. -/
theorem answerAfter {β γ : Type} {p : Web β} (reads : p.run.Every Reads) {f : β → Web γ} {s : Store} {value : β}
    (first : answerAt prim p s = .ok value) : answerAt prim (p >>= f) s = answerAt prim (f value) s := by
  unfold answerAt at first ⊢
  rw [webRun,runBind,readsRun prim reads,first]
  rfl

theorem queryAfter {β γ : Type} {o : Op} {read : Resp o → Except DbError β} {f : β → Web γ} {s : Store} {value : β}
    (first : read (exec prim o s).1 = .ok value) :
    answerAt prim (query o read >>= f) s = answerAt prim (f value) (exec prim o s).2 := by
  unfold answerAt
  rw [webRun,queryRun]
  simp only [bindOp,bindRet,Prog.run,first]
  rfl

section Jobs
variable {s : Store} {token name target helper : String}

theorem wakeIs (owns : Owns prim s token name) (helps : Helps prim s name target helper) :
    answerAt prim (wake prim token target) s =
      if ∃ j ∈ s.jobs.rows, j.owner = name ∧ j.target = target ∧ s.now ≤ j.expires then .error queued else .ok "queued" := by
  obtain ⟨state,helps⟩ := helps
  refine (answerAfter prim (ownerReads prim token) owns).trans ?_
  refine (answerAfter prim (availabilityReads name target) helps).trans ?_
  by_cases alive : ∃ j ∈ s.jobs.rows, j.owner = name ∧ j.target = target ∧ s.now ≤ j.expires
  · rw [if_pos alive]
    have none : (exec prim (.upsertJob name target helper) s).1 = .ok 0 := by simp only [exec,if_pos alive]
    exact @queryAfter prim _ _ (.upsertJob name target helper) (fun r => r) _ _ _ none
  · rw [if_neg alive]
    have one : (exec prim (.upsertJob name target helper) s).1 = .ok 1 := by simp only [exec,if_neg alive]
    exact @queryAfter prim _ _ (.upsertJob name target helper) (fun r => r) _ _ _ one

theorem targetsIs (peers : List String) (jobs : List (String × Int)) (s : Store) :
    answerAt prim (targets peers jobs) s = .ok ((jobs.filter fun job => s.now < job.2 ∧ job.1 ∈ peers).map Prod.fst) := by
  induction jobs with
  | nil => rfl
  | cons job rest ih =>
    obtain ⟨target,expires⟩ := job
    have reads : ∀ jobs, (targets peers jobs).run.Every Reads := by
      intro jobs
      induction jobs with
      | nil => trivial
      | cons job rest ih =>
        refine ⟨trivial,fun now => ?_⟩
        change (targets peers rest >>= _ : Web (List String)).run.Every Reads
        rw [webRun]
        exact everyBind ih (onwardReads fun more => trivial)
    have read : answerAt prim clock s = .ok s.now := rfl
    refine (answerAfter prim (p := clock) ⟨trivial,fun _ => trivial⟩ read).trans ?_
    refine (answerAfter prim (reads rest) ih).trans ?_
    rw [List.filter_cons]
    by_cases kept : s.now < expires ∧ target ∈ peers
    · simp only [if_pos kept,decide_eq_true kept]
      rfl
    · simp only [if_neg kept,decide_eq_false kept]
      rfl

theorem pollIs (owns : Owns prim s token name) {id : String} {peers : List String} (formed : WellFormed id peers) :
    answerAt prim (poll prim token id peers) s = .ok ((((s.jobs.rows.filter fun j => j.owner = name ∧ j.helper = id).map
      fun j => (j.target,j.expires)).filter fun job => s.now < job.2 ∧ job.1 ∈ peers).map Prod.fst) := by
  obtain ⟨named,few,each⟩ := formed
  have accepted : ¬ (!valid id || decide (256 < peers.length) || peers.any fun p => !valid p) = true := by
    simp only [named,Bool.not_true,Bool.false_or,Bool.or_eq_true,decide_eq_true_eq,List.any_eq_true,
      Bool.not_eq_true',not_or,not_exists,not_and,Bool.not_eq_false]
    exact ⟨Nat.not_lt.mpr few,each⟩
  refine (answerAfter prim (ownerReads prim token) owns).trans ?_
  rw [if_neg accepted]
  refine (@queryAfter prim _ _ (.upsertDevice name id (prim.digest token) peers) (fun r => r) _ _ () rfl).trans ?_
  exact (@queryAfter prim _ _ (.takeJobs name id) (fun r => r) _ _ _ rfl).trans (targetsIs prim peers _ _)

theorem delivered (owns : Owns prim s token name) {j : WolJob} (mine : j.owner = name)
    {peers ts} (formed : WellFormed j.helper peers) (answer : answerAt prim (poll prim token j.helper peers) s = .ok ts) :
    j.target ∈ ts ↔ j.target ∈ peers ∧ ∃ k ∈ s.jobs.rows, k.owner = j.owner ∧ k.helper = j.helper ∧
      k.target = j.target ∧ s.now < k.expires := by
  subst mine
  rw [pollIs prim owns formed] at answer
  cases answer
  simp only [List.mem_map,List.mem_filter,decide_eq_true_eq]
  constructor
  · rintro ⟨_,⟨⟨k,⟨inside,owned,helped⟩,rfl⟩,less,listed⟩,same⟩
    exact ⟨same ▸ listed,k,inside,owned,helped,same,less⟩
  · rintro ⟨listed,k,inside,owned,helped,same,less⟩
    exact ⟨_,⟨⟨k,⟨inside,owned,helped⟩,rfl⟩,less,same.symm ▸ listed⟩,same⟩

theorem oneJob {j k : WolJob} (left : j ∈ s.jobs.rows) (right : k ∈ s.jobs.rows) (same : j.owner = k.owner)
    (same' : j.target = k.target) : j = k :=
  sameRow (fun _ _ clash => ⟨clash.1.symm,clash.2.symm⟩) left right ⟨same,same'⟩

theorem aliveDelivers {j : WolJob} (inside : j ∈ s.jobs.rows) (alive : s.now < j.expires) : Delivers prim s j := by
  intro token peers owns formed listed
  exact ⟨_,pollIs prim owns formed,(delivered prim owns rfl formed (pollIs prim owns formed)).mpr
    ⟨listed,j,inside,rfl,rfl,rfl,alive⟩⟩

/- A job that would be delivered by a poll one can make has time left. -/
theorem deliversAlive (owns : Owns prim s token name) {j : WolJob} (inside : j ∈ s.jobs.rows) (mine : j.owner = name)
    (helper : valid j.helper = true) (target : valid j.target = true) (delivers : Delivers prim s j) :
    s.now < j.expires := by
  have formed : WellFormed j.helper [j.target] := ⟨helper,by simp,by simpa using target⟩
  obtain ⟨ts,answer,member⟩ := delivers token [j.target] (mine ▸ owns) formed (List.mem_singleton_self _)
  obtain ⟨_,k,inside',owned,_,same,less⟩ := (delivered prim owns mine formed answer).mp member
  rw [oneJob inside inside' owned.symm same.symm]
  exact less

end Jobs

/- A refused wake has a live job behind it, and every job can be delivered or replaced, exactly when
no job of the target expires in this very second. -/
theorem refusedWhileAlive {s : Store} {token name target helper : String} (owns : Owns prim s token name)
    (helps : Helps prim s name target helper) : Renewable prim s token name target ↔ ¬ Lapsing s name target := by
  have waking := wakeIs prim owns helps
  constructor
  · rintro renewable ⟨j,inside,owned,aimed,now,helped,named⟩
    rcases renewable.always j inside owned aimed with delivers | woken
    · have alive := deliversAlive prim owns inside owned helped named delivers
      exact absurd now (Int.ne_of_gt alive)
    · rw [waking,if_pos ⟨j,inside,owned,aimed,Int.le_of_eq now.symm⟩] at woken
      cases woken
  · intro fresh
    have kept : ∀ j ∈ s.jobs.rows, j.owner = name → j.target = target → s.now ≤ j.expires → Delivers prim s j := by
      intro j inside owned aimed late
      rcases Int.lt_or_eq_of_le late with alive | now
      · exact aliveDelivers prim inside alive
      · -- no poll can be made for it
        intro token peers _ formed listed
        exact absurd ⟨j,inside,owned,aimed,now.symm,formed.1,formed.2.2 _ listed⟩ fresh
    refine ⟨fun refused => ?_,fun j inside owned aimed => ?_⟩
    · by_cases alive : ∃ j ∈ s.jobs.rows, j.owner = name ∧ j.target = target ∧ s.now ≤ j.expires
      · obtain ⟨j,inside,owned,aimed,late⟩ := alive
        exact ⟨j,inside,owned,aimed,kept j inside owned aimed late⟩
      · rw [waking,if_neg alive] at refused
        cases refused
    · by_cases late : s.now ≤ j.expires
      · exact .inl (kept j inside owned aimed late)
      · refine .inr ?_
        rw [waking,if_neg]
        rintro ⟨k,inside',owned',aimed',late'⟩
        rw [oneJob inside' inside (owned'.trans owned.symm) (aimed'.trans aimed.symm)] at late'
        exact late late'

end Requests

def token : Minted := AccountCalls.mintedA

def session : AccountStore.Bytes := AccountCalls.plain.digest token.text

/- A silent target, a helper that has just polled and a queued job, at second 130. -/
def waiting (expires : Int) : Store where
  now := 130
  accounts := Table.empty.upsert ⟨"tester","saltlong-test-password",true⟩
  sessions := Table.empty.upsert ⟨session,"tester",1000⟩
  tickets := .empty
  devices := (Table.empty.upsert ⟨"tester","target",0,session,[]⟩).upsert ⟨"tester","helper",125,session,["target"]⟩
  jobs := Table.empty.upsert ⟨"tester","target","helper",expires⟩

theorem renewedWhileAlive : Renewable AccountCalls.plain (waiting 131) token.text "tester" "target" :=
  (@refusedWhileAlive AccountCalls.plain (waiting 131) _ _ _ "helper" (by unfold Owns; decide +kernel)
    ⟨"available",by decide +kernel⟩).mpr (by decide +kernel)

/- In its last second the job is kept by `wake` and passed over by `poll`. -/
theorem lapsingKept : Owns AccountCalls.plain (waiting 130) token.text "tester" ∧
    Helps AccountCalls.plain (waiting 130) "tester" "target" "helper" ∧
    answerAt AccountCalls.plain (wake AccountCalls.plain token.text "target") (waiting 130) = .error queued ∧
    ¬ Renewable AccountCalls.plain (waiting 130) token.text "tester" "target" := by
  have owns : Owns AccountCalls.plain (waiting 130) token.text "tester" := by unfold Owns; decide +kernel
  refine ⟨owns,⟨"available",by decide +kernel⟩,by decide +kernel,fun renewable => ?_⟩
  obtain ⟨j,inside,_,_,delivers⟩ := renewable.refused (by decide +kernel)
  cases List.mem_singleton.mp (show j ∈ [_] from inside)
  obtain ⟨ts,answer,member⟩ := delivers token.text ["target"] owns ⟨by decide,by decide,by decide⟩ (by decide)
  have none : answerAt AccountCalls.plain (poll AccountCalls.plain token.text "helper" ["target"]) (waiting 130) = .ok [] := by
    decide +kernel
  rw [none] at answer
  cases answer
  cases member

end OpenuuServer.WolRenewal
