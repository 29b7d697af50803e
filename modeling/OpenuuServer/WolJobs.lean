import OpenuuServer.AccountWol
import OpenuuServer.AccountChains

/-! The queue of wake jobs. `wake` upserts a job for a helper, a `poll` of that helper deletes its
jobs and hands their targets out. Each is several statements, and other devices of the owner,
logins and deletions run in between. -/
namespace OpenuuServer.WolJobs
open AtomicProgram UniqueTable AccountWol
open AccountStore hiding Op Resp exec

abbrev Statement := Event Op Resp Call Store

/- The wake has got its job into the queue. -/
def Accepts (u : Statement) (owner target helper : String) : Prop :=
  u.did = ⟨.upsertJob owner target helper,.ok 1⟩

/- A poll of the helper has taken the job out of the queue. -/
def Takes (a : Statement) (owner helper target : String) (expires : Int) : Prop :=
  ∃ jobs, a.did = ⟨.takeJobs owner helper,.ok jobs⟩ ∧ (target,expires) ∈ jobs

/- The token belonged to the account when the call of task i asked. -/
def Found (prim : Primitives) (w : World) (i : Nat) (token owner : String) : Prop :=
  ∃ g ∈ w.log, g.task = i ∧ g.did = ⟨.account (.selectUser (prim.digest token)),.ok (some owner)⟩

/- A poll of (owner, helper) with the list peers has answered with the target, at the moment c
when it compared the expiry of the job with the clock; a is the statement that took the job. -/
structure HandsOut (prim : Primitives) (w : World) (i : Nat) (owner helper target : String)
    (peers : List String) (a c : Statement) : Prop where
  polled : ∃ token ts, w.Answered i (.poll token helper peers) (.targets (.ok ts)) ∧ target ∈ ts ∧
    Found prim w i token owner
  taken : a ∈ w.log ∧ a.task = i ∧ ∃ expires, Takes a owner helper target expires ∧ c.before.now < expires
  compared : c ∈ w.log ∧ c.task = i ∧ c.did.1 = .clock ∧ a.pos < c.pos

/- The accepted wake that a found in the queue: the last one before it. -/
structure Stems (w : World) (a u : Statement) (owner helper target : String) : Prop where
  accepted : u ∈ w.log ∧ Accepts u owner target helper
  earlier : u.pos < a.pos
  last : ∀ u' ∈ w.log, ∀ helper', Accepts u' owner target helper' → u'.pos < a.pos → u'.pos ≤ u.pos

/- What the wake u rests on: at its query q for helpers, the helper was another device of the
owner, whose poll p of the last 30 s had listed the target under a session that was still live. -/
def Helped (prim : Primitives) (w : World) (u : Statement) (owner helper target : String) : Prop :=
  ∃ q ∈ w.log, ∃ p ∈ w.log, q.task = u.task ∧ q.pos < u.pos ∧ q.did.1 = .selectHelpers owner target ∧
    p.pos < q.pos ∧ helper ≠ target ∧ q.before.now - 30 ≤ p.before.now ∧ ∃ token peers,
      p.call = .poll token helper peers ∧ p.did.1 = .upsertDevice owner helper (prim.digest token) peers ∧
      Found prim w p.task token owner ∧ target ∈ peers ∧ ∃ row ∈ q.before.sessions,
        row.tokenHash = prim.digest token ∧ row.name = owner ∧ q.before.now < row.expires

/- What ended the job of the wake u before the statement u'. -/
inductive Ended (w : World) (u u' : Statement) (owner helper target : String) : Prop where
  | taken (a) (inside : a ∈ w.log) (between : u.pos < a.pos ∧ a.pos < u'.pos)
      (polls : ∃ token peers, a.call = .poll token helper peers) (takes : Takes a owner helper target (u.before.now + 30))
  | removed (d) (inside : d ∈ w.log) (between : u.pos < d.pos ∧ d.pos < u'.pos)
      (deletes : d.call = .account (.deleteUser owner)) (jobs : d.did.1 = .account (.deleteJobsOf owner))
  | expired (late : u.before.now + 30 < u'.before.now)

structure LeasedOnce (prim : Primitives) (w : World) : Prop where
  lists : ∀ i token helper peers ts, w.Answered i (.poll token helper peers) (.targets (.ok ts)) →
    ts.Nodup ∧ ∀ target ∈ ts, target ∈ peers ∧ ∃ owner a c, HandsOut prim w i owner helper target peers a c
  stems : ∀ i owner helper target peers a c, HandsOut prim w i owner helper target peers a c →
    ∃ u, Stems w a u owner helper target ∧ u.before.now ≤ c.before.now ∧ c.before.now < u.before.now + 30 ∧
      (∃ token, u.call = .wake token target ∧ Found prim w u.task token owner) ∧
      Helped prim w u owner helper target
  once : ∀ i owner helper target peers a c, HandsOut prim w i owner helper target peers a c →
    ∀ i' owner' helper' target' peers' a' c', HandsOut prim w i' owner' helper' target' peers' a' c' →
    ∀ u, Stems w a u owner helper target → Stems w a' u owner' helper' target' → i = i' ∧ target = target'
  queued : ∀ i token target, w.Answered i (.wake token target) (.state (.ok "queued")) →
    ∃ u ∈ w.log, u.task = i ∧ ∃ owner helper, Accepts u owner target helper
  again : ∀ u ∈ w.log, ∀ u' ∈ w.log, u.pos < u'.pos → ∀ owner target helper helper',
    Accepts u owner target helper → Accepts u' owner target helper' → Ended w u u' owner helper target

section Ways
variable {α β γ : Type} {P : List (Did Op Resp) → Op → Prop} {Q : List (Did Op Resp) → Except Refusal γ → Prop}

theorem clockAlong {f : Int → Web γ} {done} (here : P done .clock)
    (later : ∀ now, (f now).run.Along P Q (done ++ [⟨.clock,now⟩])) : (clock >>= f).run.Along P Q done :=
  ⟨here,later⟩

variable (fails : ∀ done e, Q done (.error e))
include fails

theorem onwardAlong {next : β → Prog Op Resp (Except Refusal γ)} {done} {r : Except Refusal β}
    (later : ∀ value, r = .ok value → (next value).Along P Q done) : (onward next r).Along P Q done := by
  cases r with
  | ok value => exact later value rfl
  | error e => exact fails done e

theorem queryAlong {o : Op} {read : Resp o → Except DbError β} {f : β → Web γ} {done} (here : P done o)
    (later : ∀ r value, read r = .ok value → (f value).run.Along P Q (done ++ [⟨o,r⟩])) :
    (query o read >>= f).run.Along P Q done := by
  rw [webRun,queryRun]
  refine ⟨here,fun r => onwardAlong fails fun value same => later r value ?_⟩
  revert same
  cases read r with
  | ok value' => exact fun same => congrArg _ (Except.ok.inj same)
  | error e => exact fun wrong => by cases wrong

theorem ownerAlong {prim : Primitives} {token : String} {f : String → Web γ} {done}
    (here : P done (.account (.selectUser (prim.digest token))))
    (later : ∀ name, (f name).run.Along P Q
      (done ++ [⟨.account (.selectUser (prim.digest token)),.ok (some name)⟩])) :
    (owner prim token >>= f).run.Along P Q done := by
  rw [webRun]
  change ((embedded (user prim token).run >>= fun found => _) >>= _).Along P Q done
  rw [userTree]
  by_cases short : token.utf8ByteSize ≠ 64
  · rw [if_pos short]
    exact fails done _
  · rw [if_neg short]
    refine ⟨here,fun r => ?_⟩
    match r with
    | .ok (some name) => exact later name
    | .ok none => exact fails _ _
    | .error e => exact fails _ _

end Ways

section Calls
variable (prim : Primitives)

/- What a statement of the queue was preceded by in its call. -/
def Guard (c : Call) (done : List (Did Op Resp)) : Op → Prop
  | .account (.deleteJobsOf name) => c = .account (.deleteUser name)
  | .upsertDevice name id session peers => ∃ token, c = .poll token id peers ∧ session = prim.digest token ∧
    ⟨.account (.selectUser (prim.digest token)),.ok (some name)⟩ ∈ done
  | .takeJobs _ id => ∃ token peers, c = .poll token id peers
  | .upsertJob name target helper =>
    (∃ token, c = .wake token target ∧ ⟨.account (.selectUser (prim.digest token)),.ok (some name)⟩ ∈ done) ∧
    ∃ rows peers, ⟨.selectHelpers name target,.ok rows⟩ ∈ done ∧ (helper,peers) ∈ rows ∧ target ∈ peers
  | _ => True

/- The targets of a poll are those of its jobs that it listed and that had time left. -/
def Compared (peers : List String) (jobs : List (String × Int)) (done : List (Did Op Resp)) (ts : List String) : Prop :=
  ts.Sublist (jobs.map Prod.fst) ∧ ∀ target ∈ ts, target ∈ peers ∧
    ∃ expires now, (target,expires) ∈ jobs ∧ ⟨.clock,now⟩ ∈ done ∧ now < expires

def Outcome (c : Call) (done : List (Did Op Resp)) : Answer → Prop
  | .targets (.ok ts) => ∀ token id peers, c = .poll token id peers → ∃ name jobs before after,
    done = before ++ ⟨.takeJobs name id,.ok jobs⟩ :: after ∧
    ⟨.account (.selectUser (prim.digest token)),.ok (some name)⟩ ∈ before ∧ Compared peers jobs after ts
  | .state (.ok _) => ∀ token target, c = .wake token target →
    ∃ name helper rows, rows ≠ 0 ∧ ⟨.upsertJob name target helper,.ok rows⟩ ∈ done
  | _ => True

theorem targetsAlong {P : List (Did Op Resp) → Op → Prop} (reads : ∀ done, P done .clock) (peers : List String)
    (jobs : List (String × Int)) (done : List (Did Op Resp)) : (targets peers jobs).run.Along P
      (fun done' r => ∀ ts, r = .ok ts → ∃ after, done' = done ++ after ∧ Compared peers jobs after ts) done := by
  induction jobs generalizing done with
  | nil =>
    intro ts same
    cases same
    exact ⟨[],(List.append_nil _).symm,List.Sublist.refl _,by simp⟩
  | cons job rest ih =>
    obtain ⟨target,expires⟩ := job
    refine clockAlong (reads done) fun now => ?_
    rw [webRun,alongBind]
    refine alongMono (fun done' r others => ?_) (ih _)
    refine onwardAlong (fun _ _ ts wrong => by cases wrong) fun more same => ?_
    obtain ⟨after,rfl,sub,each⟩ := others more same
    intro ts result
    refine ⟨⟨.clock,now⟩ :: after,by simp,?_⟩
    have inner : ∀ t ∈ more, t ∈ peers ∧ ∃ expires' now', (t,expires') ∈ (target,expires) :: rest ∧
        ⟨.clock,now'⟩ ∈ (⟨.clock,now⟩ :: after : List (Did Op Resp)) ∧ now' < expires' := by
      intro t member
      obtain ⟨listed,expires',now',job,read,less⟩ := each t member
      exact ⟨listed,expires',now',List.mem_cons_of_mem _ job,List.mem_cons_of_mem _ read,less⟩
    have chosen : (if now < expires ∧ target ∈ peers then target :: more else more) = ts := Except.ok.inj result
    by_cases keep : now < expires ∧ target ∈ peers
    · rw [if_pos keep] at chosen
      subst chosen
      refine ⟨sub.cons_cons target,fun t member => ?_⟩
      rcases List.mem_cons.mp member with rfl | others
      · exact ⟨keep.2,expires,now,List.mem_cons_self,List.mem_cons_self,keep.1⟩
      · exact inner t others
    · rw [if_neg keep] at chosen
      subst chosen
      exact ⟨sub.cons target,inner⟩

theorem pollAlong (token id : String) (peers : List String) : (poll prim token id peers).run.Along
    (Guard prim (.poll token id peers)) (fun done r => Outcome prim (.poll token id peers) done (.targets r)) [] := by
  have fails : ∀ done e, Outcome prim (.poll token id peers) done (.targets (.error e)) := fun _ _ => trivial
  refine ownerAlong fails trivial fun name => ?_
  rw [List.nil_append]
  split
  · exact fails [⟨.account (.selectUser (prim.digest token)),.ok (some name)⟩] ⟨400,"Invalid device list"⟩
  · refine queryAlong fails ⟨token,rfl,rfl,List.mem_singleton_self _⟩ fun r _ _ => ?_
    refine queryAlong fails ⟨token,peers,rfl⟩ fun r jobs same => ?_
    refine alongMono (fun done result compared => ?_) (targetsAlong (fun _ => trivial) peers jobs _)
    cases result with
    | error e => exact fails _ e
    | ok ts =>
      obtain ⟨after,rfl,there⟩ := compared ts rfl
      subst same
      rintro _ _ _ ⟨⟩
      exact ⟨name,jobs,_,after,List.append_assoc _ _ _,by simp,there⟩

/- A helper of `availability` is one of the devices that its query listed for the target. -/
theorem availabilityAlong {P : List (Did Op Resp) → Op → Prop} (reads : ∀ done, P done .clock) (name target : String)
    (seen : ∀ done, P done (.selectSeen name target)) (asks : ∀ done, P done (.selectHelpers name target))
    (done : List (Did Op Resp)) : (availability name target).run.Along P
      (fun done' r => ∀ state helper, r = .ok (state,some helper) → done ⊆ done' ∧ ∃ rows peers,
        ⟨.selectHelpers name target,.ok rows⟩ ∈ done' ∧ (helper,peers) ∈ rows ∧ target ∈ peers) done := by
  refine queryAlong (fun _ _ _ _ wrong => by cases wrong) (seen done) fun r row _ => ?_
  cases row with
  | none => intro _ _ wrong; cases wrong
  | some last =>
    refine clockAlong (reads _) fun now => ?_
    by_cases online : now - 30 ≤ last
    · simp only [if_pos online]
      intro _ _ wrong
      cases wrong
    · simp only [if_neg online]
      refine queryAlong (fun _ _ _ _ wrong => by cases wrong) (asks _) fun r helpers answer => ?_
      subst answer
      cases chosen : helpers.find? fun h => target ∈ h.2 with
      | none => intro _ _ wrong; cases wrong
      | some row =>
        intro _ _ same
        cases same
        have lists := List.find?_some chosen
        exact ⟨by simp,helpers,row.2,by simp,List.mem_of_find?_eq_some chosen,of_decide_eq_true lists⟩

theorem statusAlong (token target : String) : (status prim token target).run.Along
    (Guard prim (.status token target)) (fun done r => Outcome prim (.status token target) done (.state r)) [] := by
  have other : ∀ done r, Outcome prim (.status token target) done (.state r) := by
    intro done r
    cases r with
    | error e => trivial
    | ok text => intro _ _ wrong; cases wrong
  refine ownerAlong (fun done e => other done (.error e)) trivial fun name => ?_
  rw [webRun,alongBind]
  refine alongMono (fun done r _ => ?_) (availabilityAlong (fun _ => trivial) name target (fun _ => trivial)
    (fun _ => trivial) _)
  exact onwardAlong (fun done e => other done (.error e)) fun value _ => other done (.ok value.1)

theorem wakeAlong (token target : String) : (wake prim token target).run.Along
    (Guard prim (.wake token target)) (fun done r => Outcome prim (.wake token target) done (.state r)) [] := by
  have fails : ∀ done e, Outcome prim (.wake token target) done (.state (.error e)) := fun _ _ => trivial
  refine ownerAlong fails trivial fun name => ?_
  rw [webRun,alongBind]
  refine alongMono (fun done r chosen => ?_) (availabilityAlong (fun _ => trivial) name target (fun _ => trivial)
    (fun _ => trivial) _)
  refine onwardAlong fails fun value same => ?_
  obtain ⟨state,helper⟩ := value
  cases helper with
  | none => exact fails done ⟨409,state⟩
  | some helper =>
    obtain ⟨kept,helps⟩ := chosen state helper same
    refine queryAlong fails ⟨⟨token,rfl,kept (by simp)⟩,helps⟩ fun r rows same => ?_
    subst same
    by_cases none : rows = 0
    · simp only [if_pos none]
      trivial
    · simp only [if_neg none]
      rintro _ _ ⟨⟩
      exact ⟨name,helper,rows,none,by simp⟩

theorem guards (c : Call) : (program prim c).EveryAfter (Guard prim c) [] := by
  cases c with
  | account c =>
    refine everyAfterMap.mpr (everyAfterOfEvery (Q := fun o => ∀ done, Guard prim (.account c) done o)
      (fun done o all => all done) (embedEvery (Q := AccountCalls.Belongs prim c) ?_ (AccountCalls.everyBelongs prim c)) [])
    intro o belongs done
    cases o with
    | deleteJobsOf name => exact congrArg Call.account belongs
    | _ => trivial
  | poll token id peers => exact everyAfterMap.mpr (alongEvery (pollAlong prim token id peers))
  | status token target => exact everyAfterMap.mpr (alongEvery (statusAlong prim token target))
  | wake token target => exact everyAfterMap.mpr (alongEvery (wakeAlong prim token target))

theorem outcomes (c : Call) : (program prim c).Ends (Outcome prim c) [] := by
  cases c with
  | account c => exact endsMap.mpr (endsAll (fun _ _ => trivial) _ _)
  | poll token id peers => exact endsMap.mpr (alongEnds (pollAlong prim token id peers))
  | status token target => exact endsMap.mpr (alongEnds (statusAlong prim token target))
  | wake token target => exact endsMap.mpr (alongEnds (wakeAlong prim token target))

end Calls

section Rows
variable {prim : Primitives} {s : Store}

/- A job after a statement was there already or has just been queued. -/
theorem jobAfter {o : Op} {j : WolJob} (there : j ∈ (exec prim o s).2.jobs) :
    (j ∈ s.jobs ∧ o ≠ .takeJobs j.owner j.helper ∧
      ∀ helper, ¬ (o = .upsertJob j.owner j.target helper ∧ (exec prim (.upsertJob j.owner j.target helper) s).1 = .ok 1)) ∨
    o = .upsertJob j.owner j.target j.helper ∧
      (exec prim (.upsertJob j.owner j.target j.helper) s).1 = .ok 1 ∧ j.expires = s.now + 30 := by
  cases o with
  | account o =>
    refine .inl ⟨?_,Op.noConfusion,fun _ wrong => Op.noConfusion wrong.1⟩
    by_cases writes : AccountChains.written o = some .jobs
    · cases o with
      | deleteJobsOf name => exact (memDelete.mp there).1
      | _ => cases writes
    · have same : AccountChains.Same (AccountStore.exec prim o s).2 s .jobs := AccountChains.otherSame writes
      exact same ▸ there
  | takeJobs owner helper =>
    obtain ⟨old,kept⟩ := memDelete.mp there
    refine .inl ⟨old,fun same => ?_,fun _ wrong => Op.noConfusion wrong.1⟩
    cases same
    exact of_decide_eq_false kept ⟨rfl,rfl⟩
  | upsertJob owner target helper =>
    by_cases queued : ∃ j ∈ s.jobs.rows, j.owner = owner ∧ j.target = target ∧ s.now ≤ j.expires
    · simp only [exec,if_pos queued] at there
      refine .inl ⟨there,Op.noConfusion,?_⟩
      rintro _ ⟨same,accepted⟩
      cases same
      simp only [exec,if_pos queued] at accepted
      cases accepted
    · simp only [exec,if_neg queued] at there
      rcases memUpsert.mp there with ⟨old,apart⟩ | rfl
      · refine .inl ⟨old,Op.noConfusion,?_⟩
        rintro _ ⟨same,_⟩
        cases same
        exact apart ⟨rfl,rfl⟩
      · exact .inr ⟨rfl,by simp only [exec,if_neg queued],rfl⟩
  | _ => exact .inl ⟨there,Op.noConfusion,fun _ wrong => Op.noConfusion wrong.1⟩

/- A job stays until its helper takes it, its owner is deleted or another wake finds it expired. -/
theorem jobStays (prim : Primitives) (o : Op) {j : WolJob} (there : j ∈ s.jobs) : j ∈ (exec prim o s).2.jobs ∨
    o = .takeJobs j.owner j.helper ∨ o = .account (.deleteJobsOf j.owner) ∨ j.expires < s.now := by
  cases o with
  | account o =>
    by_cases writes : AccountChains.written o = some .jobs
    · cases o with
      | deleteJobsOf name =>
        by_cases same : j.owner = name
        · subst same
          exact .inr (.inr (.inl rfl))
        · exact .inl (memDelete.mpr ⟨there,decide_eq_false same⟩)
      | _ => cases writes
    · have same : AccountChains.Same (AccountStore.exec prim o s).2 s .jobs := AccountChains.otherSame writes
      exact .inl (same ▸ there)
  | takeJobs owner helper =>
    by_cases same : j.owner = owner ∧ j.helper = helper
    · obtain ⟨rfl,rfl⟩ := same
      exact .inr (.inl rfl)
    · exact .inl (memDelete.mpr ⟨there,decide_eq_false same⟩)
  | upsertJob owner target helper =>
    by_cases queued : ∃ j ∈ s.jobs.rows, j.owner = owner ∧ j.target = target ∧ s.now ≤ j.expires
    · simp only [exec,if_pos queued]
      exact .inl there
    · simp only [exec,if_neg queued]
      by_cases same : j.owner = owner ∧ j.target = target
      · refine .inr (.inr (.inr ?_))
        by_contra later
        exact queued ⟨j,there,same.1,same.2,Int.not_lt.mp later⟩
      · exact .inl (memUpsert.mpr (.inl ⟨there,same⟩))
  | _ => exact .inl there

theorem deviceAfter {o : Op} {d : WolDevice} (there : d ∈ (exec prim o s).2.devices) : d ∈ s.devices ∨
    o = .upsertDevice d.owner d.id d.session d.peers ∧ d.seen = s.now := by
  cases o with
  | account o =>
    refine .inl ?_
    by_cases writes : AccountChains.written o = some .devices
    · cases o with
      | deleteDevicesOf name => exact (memDelete.mp there).1
      | _ => cases writes
    · have same : AccountChains.Same (AccountStore.exec prim o s).2 s .devices := AccountChains.otherSame writes
      exact same ▸ there
  | upsertDevice owner id session peers =>
    rcases memUpsert.mp there with ⟨old,_⟩ | rfl
    · exact .inl old
    · exact .inr ⟨rfl,rfl⟩
  | upsertJob owner target helper =>
    refine .inl ?_
    by_cases queued : ∃ j ∈ s.jobs.rows, j.owner = owner ∧ j.target = target ∧ s.now ≤ j.expires
    · simp only [exec,if_pos queued] at there
      exact there
    · simp only [exec,if_neg queued] at there
      exact there
  | _ => exact .inl there

end Rows

section Runs
variable {prim : Primitives} {ok : World → Act Call Nat → Prop} {now : Int} {w : World}

/- Every job in the queue is that of the last wake accepted for its target, and no poll of its
helper has asked for jobs since. -/
def Sourced (w : World) : Prop := ∀ j ∈ w.shared.jobs, ∃ u ∈ w.log, Accepts u j.owner j.target j.helper ∧
  j.expires = u.before.now + 30 ∧ (∀ u' ∈ w.log, ∀ helper, Accepts u' j.owner j.target helper → u'.pos ≤ u.pos) ∧
  ∀ a ∈ w.log, a.did.1 = .takeJobs j.owner j.helper → a.pos < u.pos

theorem sourced (reach : (machine prim).Reach ok (Store.init now) w) : Sourced w := by
  refine Machine.invariant (I := Sourced) ?_ ?_ ?_ ?_ reach
  · intro j there
    exact absurd there notMemEmpty
  · intro w c _ _ ih; exact ih
  · intro w i c o next before _ _ _ ih j there
    rcases jobAfter there with ⟨old,spared,apart⟩ | ⟨rfl,accepted,expires⟩
    · obtain ⟨u,inside,accepts,deadline,last,behind⟩ := ih j old
      refine ⟨u,Machine.stillThere inside,accepts,deadline,fun u' there' helper again => ?_,fun a there' takes => ?_⟩
      · rcases Machine.memPerformed.mp there' with earlier | rfl
        · exact last u' earlier helper again
        · have same : o = .upsertJob j.owner j.target helper := congrArg Sigma.fst again
          subst same
          have accepted : (exec prim (.upsertJob j.owner j.target helper) w.shared).1 = .ok 1 :=
            eq_of_heq (Sigma.mk.inj again).2
          exact absurd ⟨rfl,accepted⟩ (apart helper)
      · rcases Machine.memPerformed.mp there' with earlier | rfl
        · exact behind a earlier takes
        · exact absurd takes spared
    · refine ⟨_,Machine.happened,?_,expires,fun u' there' helper _ => ?_,fun a there' takes => ?_⟩
      · exact congrArg (Sigma.mk _) accepted
      · rcases Machine.memPerformed.mp there' with earlier | rfl
        · exact Nat.le_of_lt (Machine.olderPosition before earlier)
        · exact Nat.le_refl _
      · rcases Machine.memPerformed.mp there' with earlier | rfl
        · exact Machine.olderPosition before earlier
        · cases takes
  · intro w e _ _ ih; exact ih

/- Every device row is that of a poll. -/
theorem polledDevices (reach : (machine prim).Reach ok (Store.init now) w) : ∀ d ∈ w.shared.devices,
    ∃ p ∈ w.log, p.did.1 = .upsertDevice d.owner d.id d.session d.peers ∧ d.seen = p.before.now := by
  refine Machine.invariant (I := fun w => ∀ d ∈ w.shared.devices,
    ∃ p ∈ w.log, p.did.1 = .upsertDevice d.owner d.id d.session d.peers ∧ d.seen = p.before.now) ?_ ?_ ?_ ?_ reach
  · intro d there
    exact absurd there notMemEmpty
  · intro w c _ _ ih; exact ih
  · intro w i c o next _ _ _ _ ih d there
    rcases deviceAfter there with old | ⟨rfl,seen⟩
    · obtain ⟨p,inside,rest⟩ := ih d old
      exact ⟨p,Machine.stillThere inside,rest⟩
    · exact ⟨_,Machine.happened,rfl,seen⟩
  · intro w e _ _ ih; exact ih

theorem clockBehind (reach : (machine prim).Reach ok (Store.init now) w) : ∀ e ∈ w.log, e.before.now ≤ w.shared.now := by
  refine Machine.invariant (I := fun w => ∀ e ∈ w.log, e.before.now ≤ w.shared.now) ?_ ?_ ?_ ?_ reach
  · intro e there; cases there
  · intro w c _ _ ih; exact ih
  · intro w i c o next _ _ _ _ ih e there
    rcases Machine.memPerformed.mp there with old | rfl
    · exact Int.le_trans (ih e old) (Int.le_of_eq (execNow prim o _).symm)
    · exact Int.le_of_eq (execNow prim o w.shared).symm
  · intro w seconds _ _ ih e there
    have later : w.shared.now ≤ w.shared.now + seconds := by omega
    exact Int.le_trans (ih e there) later

/- An accepted wake is in the queue until one of the three things has happened. -/
inductive Over (w : World) (u : Statement) (owner helper target : String) : Prop where
  | taken (a) (inside : a ∈ w.log) (later : u.pos < a.pos) (takes : Takes a owner helper target (u.before.now + 30))
  | removed (d) (inside : d ∈ w.log) (later : u.pos < d.pos) (jobs : d.did.1 = .account (.deleteJobsOf owner))
  | expired (late : u.before.now + 30 < w.shared.now)

def Pending (w : World) : Prop := ∀ u ∈ w.log, ∀ owner target helper, Accepts u owner target helper →
  (⟨owner,target,helper,u.before.now + 30⟩ : WolJob) ∈ w.shared.jobs ∨ Over w u owner helper target

theorem pending (reach : (machine prim).Reach ok (Store.init now) w) : Pending w := by
  refine Machine.invariant (I := Pending) ?_ ?_ ?_ ?_ reach
  · intro u there; cases there
  · intro w c _ _ ih u there owner target helper accepts
    rcases ih u there owner target helper accepts with queued | gone
    · exact .inl queued
    · refine .inr ?_
      cases gone with
      | taken a inside later takes => exact .taken a inside later takes
      | removed d inside later jobs => exact .removed d inside later jobs
      | expired late => exact .expired late
  · intro w i c o next before _ _ _ ih u there owner target helper accepts
    rcases Machine.memPerformed.mp there with old | rfl
    · have position := Machine.olderPosition before old
      rcases ih u old owner target helper accepts with queued | gone
      · rcases jobStays prim o queued with kept | rfl | rfl | late
        · exact .inl kept
        · refine .inr (.taken _ Machine.happened position ⟨_,rfl,?_⟩)
          exact List.mem_map.mpr ⟨_,List.mem_filter.mpr ⟨queued,decide_eq_true ⟨rfl,rfl⟩⟩,rfl⟩
        · exact .inr (.removed _ Machine.happened position rfl)
        · exact .inr (.expired (Int.lt_of_lt_of_le late (Int.le_of_eq (execNow prim o _).symm)))
      · refine .inr ?_
        cases gone with
        | taken a inside later takes => exact .taken a (Machine.stillThere inside) later takes
        | removed d inside later jobs => exact .removed d (Machine.stillThere inside) later jobs
        | expired late => exact .expired (Int.lt_of_lt_of_le late (Int.le_of_eq (execNow prim o _).symm))
    · have same : o = .upsertJob owner target helper := congrArg Sigma.fst accepts
      subst same
      have accepted : (exec prim (.upsertJob owner target helper) w.shared).1 = .ok 1 :=
        eq_of_heq (Sigma.mk.inj accepts).2
      refine .inl ?_
      by_cases queued : ∃ j ∈ w.shared.jobs.rows, j.owner = owner ∧ j.target = target ∧ w.shared.now ≤ j.expires
      · simp only [exec,if_pos queued] at accepted
        cases accepted
      · change _ ∈ (exec prim (.upsertJob owner target helper) w.shared).2.jobs
        simp only [exec,if_neg queued]
        exact memUpsert.mpr (.inr rfl)
  · intro w seconds _ _ ih u there owner target helper accepts
    rcases ih u there owner target helper accepts with queued | gone
    · exact .inl queued
    · refine .inr ?_
      have later : w.shared.now ≤ w.shared.now + seconds := by omega
      cases gone with
      | taken a inside later takes => exact .taken a inside later takes
      | removed d inside later jobs => exact .removed d inside later jobs
      | expired late => exact .expired (Int.lt_of_lt_of_le late later)

/- What a poll takes is the job of the last accepted wake, and no other poll has come in between. -/
theorem takenSource (reach : (machine prim).Reach ok (Store.init now) w) {a : Statement} (inside : a ∈ w.log)
    {owner helper target expires} (takes : Takes a owner helper target expires) :
    ∃ u, Stems w a u owner helper target ∧ expires = u.before.now + 30 ∧
      ∀ b ∈ w.log, b.did.1 = .takeJobs owner helper → b.pos < a.pos → b.pos < u.pos := by
  obtain ⟨v,reached,_,shared,history,_,_⟩ := Machine.moment reach inside
  obtain ⟨jobs,did,member⟩ := takes
  have listed : jobs = (a.before.jobs.rows.filter fun j => j.owner = owner ∧ j.helper = helper).map
      fun j => (j.target,j.expires) := Except.ok.inj (Machine.responseIs reach inside did)
  rw [listed,← shared] at member
  simp only [List.mem_map,List.mem_filter,decide_eq_true_eq,Prod.mk.injEq] at member
  obtain ⟨j,⟨there,rfl,rfl⟩,rfl,rfl⟩ := member
  obtain ⟨u,before,accepts,deadline,last,behind⟩ := sourced reached j there
  obtain ⟨kept,less⟩ := (history u).mp before
  refine ⟨u,⟨⟨kept,accepts⟩,less,fun u' there' helper again earlier => ?_⟩,deadline,fun b there' takes earlier => ?_⟩
  · exact last u' ((history u').mpr ⟨there',earlier⟩) helper again
  · exact behind b ((history b).mpr ⟨there',earlier⟩) takes

theorem stemsSame (reach : (machine prim).Reach ok (Store.init now) w) {a u u' : Statement} {owner helper helper' target}
    (left : Stems w a u owner helper target) (right : Stems w a u' owner helper' target) : u = u' :=
  Machine.samePosition reach left.accepted.1 right.accepted.1 (Nat.le_antisymm
    (right.last u left.accepted.1 helper left.accepted.2 left.earlier)
    (left.last u' right.accepted.1 helper' right.accepted.2 right.earlier))

/- The guard of an event, with the events of its task that it speaks of. -/
theorem guardedEvent (reach : (machine prim).Reach ok (Store.init now) w) {e : Statement} (inside : e ∈ w.log) :
    ∃ done, Guard prim e.call done e.did.1 ∧ ∀ d ∈ done, ∃ b ∈ w.log, b.task = e.task ∧ b.pos < e.pos ∧ b.did = d :=
  Machine.guarded (P := fun _ c => Guard prim c) (fun _ c => guards prim c) reach inside

/- A device that helps is a device of the owner that has polled lately under a live session. -/
theorem helperPolled (reach : (machine prim).Reach ok (Store.init now) w) {q : Statement} (inside : q ∈ w.log)
    {owner target rows helper peers} (did : q.did = ⟨.selectHelpers owner target,.ok rows⟩)
    (member : (helper,peers) ∈ rows) (lists : target ∈ peers) :
    ∃ p ∈ w.log, p.pos < q.pos ∧ helper ≠ target ∧ q.before.now - 30 ≤ p.before.now ∧ ∃ token peers,
      p.call = .poll token helper peers ∧ p.did.1 = .upsertDevice owner helper (prim.digest token) peers ∧
      Found prim w p.task token owner ∧ target ∈ peers ∧ ∃ row ∈ q.before.sessions,
        row.tokenHash = prim.digest token ∧ row.name = owner ∧ q.before.now < row.expires := by
  obtain ⟨v,reached,_,shared,history,_,_⟩ := Machine.moment reach inside
  have found : rows = (Store.helpers q.before owner target).map fun d => (d.id,d.peers) :=
    Except.ok.inj (Machine.responseIs reach inside did)
  rw [found] at member
  obtain ⟨d,chosen,same⟩ := List.mem_map.mp member
  cases same
  obtain ⟨there,fits⟩ := List.mem_filter.mp ((List.mem_insertionSort _).mp chosen)
  obtain ⟨rfl,other,recent,row,session,same,alive,owned⟩ := of_decide_eq_true fits
  obtain ⟨p,before,polls,seen⟩ := polledDevices reached d (shared ▸ there)
  obtain ⟨kept,less⟩ := (history p).mp before
  obtain ⟨done,guard,events⟩ := guardedEvent reach kept
  rw [polls] at guard
  obtain ⟨token,call,digest,first⟩ := guard
  obtain ⟨g,there',task,_,asked⟩ := events _ first
  rw [digest] at polls same
  exact ⟨p,kept,less,other,seen ▸ recent,token,d.peers,call,polls,⟨g,there',task,asked⟩,lists,row,session,
    same.symm,owned,alive⟩

theorem wakeHelped (reach : (machine prim).Reach ok (Store.init now) w) {u : Statement} (inside : u ∈ w.log)
    {owner target helper} (accepts : Accepts u owner target helper) :
    (∃ token, u.call = .wake token target ∧ Found prim w u.task token owner) ∧ Helped prim w u owner helper target := by
  obtain ⟨done,guard,events⟩ := guardedEvent reach inside
  rw [congrArg Sigma.fst accepts] at guard
  obtain ⟨⟨token,call,first⟩,rows,peers,query,member,lists⟩ := guard
  obtain ⟨g,there,task,_,asked⟩ := events _ first
  obtain ⟨q,there',task',less,did⟩ := events _ query
  obtain ⟨p,kept,rest⟩ := helperPolled reach there' did member lists
  exact ⟨⟨token,call,g,there,task,asked⟩,q,there',p,kept,task',less,congrArg Sigma.fst did,rest⟩

/- The jobs of one poll have different targets. -/
theorem takenApart (reach : (machine prim).Reach ok (Store.init now) w) {a : Statement} (inside : a ∈ w.log)
    {owner helper jobs} (did : a.did = ⟨.takeJobs owner helper,.ok jobs⟩) : (jobs.map Prod.fst).Nodup := by
  have listed : jobs = (a.before.jobs.rows.filter fun j => j.owner = owner ∧ j.helper = helper).map
      fun j => (j.target,j.expires) := Except.ok.inj (Machine.responseIs reach inside did)
  rw [listed,List.map_map,List.Nodup,List.pairwise_map]
  refine (a.before.jobs.unique.sublist List.filter_sublist).imp_of_mem fun left right apart same => ?_
  have owned := (of_decide_eq_true (List.mem_filter.mp left).2).1
  have owned' := (of_decide_eq_true (List.mem_filter.mp right).2).1
  exact apart ⟨owned.trans owned'.symm,same⟩

theorem pollLists (reach : (machine prim).Reach ok (Store.init now) w) {i token helper peers ts}
    (done : w.Answered i (.poll token helper peers) (.targets (.ok ts))) :
    ts.Nodup ∧ ∀ target ∈ ts, target ∈ peers ∧ ∃ owner a c, HandsOut prim w i owner helper target peers a c := by
  obtain ⟨owner,jobs,before,after,dids,first,sub,each⟩ :=
    Machine.answeredEnds (Q := fun _ c => Outcome prim c) (fun _ c => outcomes prim c) reach done token helper peers rfl
  have taken : (w.didsOf i)[before.length]? = some ⟨.takeJobs owner helper,.ok jobs⟩ := by
    rw [dids,List.getElem?_append_right (Nat.le_refl _)]
    simp
  obtain ⟨b,there,_,did⟩ := didsOfMember.mp (List.mem_of_getElem? taken)
  refine ⟨(takenApart reach there did).sublist sub,fun target member => ?_⟩
  obtain ⟨listed,expires,read,job,compared,less⟩ := each target member
  obtain ⟨k,found⟩ := List.getElem?_of_mem compared
  have later : (w.didsOf i)[before.length + (k + 1)]? = some ⟨.clock,read⟩ := by
    rw [dids,List.getElem?_append_right (by omega)]
    simpa using found
  obtain ⟨a,inside,c,inside',task,task',did,did',order⟩ := Machine.didsInOrder reach taken later (by omega)
  obtain ⟨g,inside'',task'',asked⟩ := didsOfMember.mp
    (show _ ∈ w.didsOf i by rw [dids]; exact List.mem_append_left _ first)
  have same : read = c.before.now := Machine.responseIs reach inside' did'
  subst same
  exact ⟨listed,owner,a,c,⟨token,ts,done,member,g,inside'',task'',asked⟩,
    ⟨inside,task,expires,⟨jobs,did,job⟩,less⟩,⟨inside',task',congrArg Sigma.fst did',order⟩⟩

end Runs

/- Whatever runs beside it, every wake is handed out once at most, in time, and to the device
that was asked to help. -/
theorem leasedOnce {prim : Primitives} {ok : World → Act Call Nat → Prop} {now : Int} {w : World}
    (reach : (machine prim).Reach ok (Store.init now) w) : LeasedOnce prim w where
  lists := fun i token helper peers ts done => pollLists reach done
  stems := by
    rintro i owner helper target peers a c ⟨_,⟨inside,_,expires,takes,less⟩,inside',_,_,order⟩
    obtain ⟨u,stems,rfl,_⟩ := takenSource reach inside takes
    obtain ⟨v,reached,_,shared,history,_⟩ := Machine.moment reach inside'
    have earlier := stems.earlier
    have onward := clockBehind reached u ((history u).mpr ⟨stems.accepted.1,by omega⟩)
    rw [shared] at onward
    obtain ⟨woken,helped⟩ := wakeHelped reach stems.accepted.1 stems.accepted.2
    exact ⟨u,stems,onward,less,woken,helped⟩
  once := by
    rintro i owner helper target peers a c ⟨_,⟨inside,task,_,takes,_⟩,_⟩
      i' owner' helper' target' peers' a' c' ⟨_,⟨inside',task',_,takes',_⟩,_⟩ u left right
    have same := left.accepted.2.symm.trans right.accepted.2
    cases same
    refine ⟨?_,rfl⟩
    obtain ⟨v,stems,_,behind⟩ := takenSource reach inside takes
    obtain ⟨v',stems',_,behind'⟩ := takenSource reach inside' takes'
    obtain ⟨_,did,_⟩ := takes
    obtain ⟨_,did',_⟩ := takes'
    cases stemsSame reach stems left
    cases stemsSame reach stems' right
    -- the later of the two would have found the queue as the earlier one left it
    have before := left.earlier
    have before' := right.earlier
    have position : a.pos = a'.pos := by
      rcases Nat.lt_trichotomy a.pos a'.pos with less | same | more
      · have := behind' a inside (congrArg Sigma.fst did) less
        omega
      · exact same
      · have := behind a' inside' (congrArg Sigma.fst did') more
        omega
    rw [← task,← task',Machine.samePosition reach inside inside' position]
  queued := by
    intro i token target done
    obtain ⟨owner,helper,rows,some,did⟩ :=
      Machine.answeredEnds (Q := fun _ c => Outcome prim c) (fun _ c => outcomes prim c) reach done token target rfl
    obtain ⟨u,inside,task,did⟩ := didsOfMember.mp did
    refine ⟨u,inside,task,owner,helper,?_⟩
    have result : .ok rows = (exec prim (.upsertJob owner target helper) u.before).1 := Machine.responseIs reach inside did
    by_cases queued : ∃ j ∈ u.before.jobs.rows, j.owner = owner ∧ j.target = target ∧ u.before.now ≤ j.expires
    · simp only [exec,if_pos queued] at result
      exact absurd (Except.ok.inj result) some
    · simp only [exec,if_neg queued] at result
      rw [Accepts,did,result]
  again := by
    intro u inside u' inside' less owner target helper helper' accepts accepts'
    obtain ⟨v,reached,_,shared,history,_,_⟩ := Machine.moment reach inside'
    rcases pending reached u ((history u).mpr ⟨inside,less⟩) owner target helper accepts with queued | gone
    · rw [shared] at queued
      refine .expired ?_
      have result : .ok 1 = (exec prim (.upsertJob owner target helper') u'.before).1 :=
        Machine.responseIs reach inside' accepts'
      by_contra early
      rw [exec,if_pos ⟨_,queued,rfl,rfl,Int.not_lt.mp early⟩] at result
      cases result
    · cases gone with
      | taken a there later takes =>
        obtain ⟨kept,earlier⟩ := (history a).mp there
        obtain ⟨_,guard,_⟩ := guardedEvent reach kept
        have did : a.did.1 = .takeJobs owner helper := by
          obtain ⟨_,did,_⟩ := takes
          exact congrArg Sigma.fst did
        rw [did] at guard
        exact .taken a kept ⟨later,earlier⟩ guard takes
      | removed d there later jobs =>
        obtain ⟨kept,earlier⟩ := (history d).mp there
        obtain ⟨_,guard,_⟩ := guardedEvent reach kept
        rw [jobs] at guard
        exact .removed d kept ⟨later,earlier⟩ guard jobs
      | expired late => exact .expired (shared ▸ late)

def token : Minted := AccountCalls.mintedA

def create : Call := .account (.createUser "tester" "long-test-password" "salt")
def signIn : Call := .account (.login "tester" "long-test-password" token)
def helps : Call := .poll token.text "helper" ["target"]
def awake : Call := .wake token.text "target"

/- The target registers and goes silent; a second wake comes while the helper is about to take
the job of the first. -/
def wakingActs : List (Act Call Nat) := [
  .start create,.advance 0,.start signIn,.advance 1,.advance 1,.advance 1,.advance 1,
  .start (.poll token.text "target" []),.advance 2,.advance 2,.advance 2,.env 31,
  .start helps,.advance 3,.advance 3,.advance 3,.start awake,.start awake,.advance 4,.advance 5,
  .advance 4,.advance 4,.advance 5,.advance 4,.advance 5,.advance 5,.advance 4,
  .start helps,.advance 6,.advance 6,.advance 6,.advance 5,.advance 6,.env 31,
  .start helps,.advance 7,.advance 7,.advance 7,.advance 7]

theorem wokenOnce : ∃ w, (machine AccountCalls.plain).Reach (fun _ _ => True) (Store.init 100) w ∧
    w.Answered 4 awake (.state (.ok "queued")) ∧ w.Answered 5 awake (.state (.ok "queued")) ∧
    w.Answered 6 helps (.targets (.ok ["target"])) ∧ w.Answered 7 helps (.targets (.ok [])) ∧
    LeasedOnce AccountCalls.plain w := by
  obtain ⟨w,reach,shown⟩ := Machine.reachWith (fun _ _ => True) (fun _ _ => true) (fun _ _ _ => trivial) wakingActs
    (m := machine AccountCalls.plain) (s := Store.init 100)
    (P := fun w => w.answer 4 = some (awake,some (.state (.ok "queued"))) &&
      w.answer 5 = some (awake,some (.state (.ok "queued"))) &&
      w.answer 6 = some (helps,some (.targets (.ok ["target"]))) &&
      w.answer 7 = some (helps,some (.targets (.ok [])))) (by decide +kernel)
  simp only [Bool.and_eq_true,decide_eq_true_eq] at shown
  obtain ⟨⟨⟨first,second⟩,woken⟩,late⟩ := shown
  exact ⟨w,reach,answered first,answered second,answered woken,answered late,leasedOnce reach⟩

end OpenuuServer.WolJobs
