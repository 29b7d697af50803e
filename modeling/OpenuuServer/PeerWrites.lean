import OpenuuServer.PeerBinding

/-! RegisterPk when writes of table `peer` fail. `register_pk_result` drops the answer of
`update_pk`, so a request whose write failed is answered OK, and memory, which was changed
before, makes the next identical request look unchanged. -/
namespace OpenuuServer.PeerWrites
open AtomicProgram UniqueTable IpText PeerRegistry PeerSequence PeerBinding

/- The peers can be read, and a new guid is not in use; writing may fail. -/
def Readable (s : Registry) : Call → Prop
  | .registerPk _ _ newGuid out => out.getPeer = false ∧ newGuid ≠ [] ∧ ∀ r ∈ s.table, r.guid ≠ newGuid
  | .get _ fails => fails = false
  | .registerPeer _ _ => True

/- The table holds what the request asked for. -/
def Recorded (table : Peers) (rk : RegisterPk) (addr : SocketAddr) : Prop :=
  ∃ r ∈ table, r.id = rk.id ∧ r.uuid = rk.uuid ∧ r.pk = rk.pk ∧ r.info.ip = addr.ip.text

/- A restarted server finds the peer as it was registered. -/
def Survives (expired : Nat → Nat) (s : Registry) (rk : RegisterPk) (addr : SocketAddr) : Prop :=
  ∃ p, got expired s.restart rk.id false = some p ∧ p.uuid = rk.uuid ∧ p.pk = rk.pk ∧ p.info.ip = addr.ip.text

/- The request gets as far as `update_pk`, and the statement that it comes to fails. -/
def WriteFails (expired : Nat → Nat) (s : Registry) : Call → Prop
  | .registerPk rk addr _ out => rk.uuid ≠ [] ∧ rk.pk ≠ [] ∧ Passes s rk addr ∧
    (∃ ipChanged, checkPeer (found expired s rk.id out.getPeer) rk addr.ip.text = some (true,ipChanged)) ∧
    countPk (found expired s rk.id out.getPeer).regPk s.now ≠ none ∧
    if (found expired s rk.id out.getPeer).guid = [] then out.insertPeer = true else out.updatePk = true
  | _ => False

/- The next registration of the peer, on a database that works, makes up for the write. -/
def Retried (expired : Nat → Nat) (s : Registry) (id : String) : Prop :=
  ∀ ns rk addr newGuid, rk.id = id → Readable s (.registerPk rk addr newGuid .none) →
    (answering expired (.registerPk rk addr newGuid .none) { s with now := s.now + ns }).1 = .pk .ok →
    Recorded (answering expired (.registerPk rk addr newGuid .none) { s with now := s.now + ns }).2.table rk addr

/- What an OK promises, and what becomes of a failed write. -/
def Honest (expired : Nat → Nat) (s : Registry) (c : Call) : Prop :=
  ∀ rk addr newGuid out, c = .registerPk rk addr newGuid out →
    ((answering expired c s).1 = .pk .ok → Recorded (answering expired c s).2.table rk addr ∧
      Survives expired (answering expired c s).2 rk addr) ∧
    (WriteFails expired s c → (answering expired c s).1 ≠ .pk .ok ∨ Retried expired (answering expired c s).2 rk.id)

section Answers
variable {expired : Nat → Nat} {s : Registry}

/- When a request is answered OK. -/
theorem registerAtOk {ref : LockPeer} {rk addr newGuid out} :
    ((registerAt rk addr newGuid out ref).run (exec expired) s).1 = .ok ↔
      (checkPeer (s.peer ref) rk addr.ip.text).isSome = true ∧ countPk (s.peer ref).regPk s.now ≠ none := by
  unfold registerAt act
  simp only [performIs,bindOp,bindRet,Prog.run,exec]
  cases check : checkPeer (s.peer ref) rk addr.ip.text with
  | none => simp [Prog.run]
  | some verdict =>
    obtain ⟨changed,ipChanged⟩ := verdict
    simp only [Prog.run,exec]
    cases counted : countPk (s.peer ref).regPk s.now with
    | none => simp [Prog.run]
    | some regPk => cases ipChanged <;> cases changed <;> simp [Prog.run,exec,runBind]

theorem registerPkOk (placed : Placed s) (rk addr newGuid out) :
    ((registerPkResult rk addr newGuid out).run (exec expired) s).1 = .ok ↔ Passes s rk addr ∧
      (checkPeer (found expired s rk.id out.getPeer) rk addr.ip.text).isSome = true ∧
      countPk (found expired s rk.id out.getPeer).regPk s.now ≠ none := by
  unfold registerPkResult act
  split
  · rename_i short
    exact iff_of_false (by simp [Prog.run]) fun passes => absurd passes.1.1 (by omega)
  rename_i long
  simp only [performIs,bindOp,bindRet,Prog.run,exec]
  by_cases allowed : (blocked s.now s.ipBlocker addr.ip.text rk.id).1 = true
  · have passes : Passes s rk addr := ⟨by omega,allowed⟩
    have admitted : Placed { s with ipBlocker := (blocked s.now s.ipBlocker addr.ip.text rk.id).2 } :=
      ⟨placed.inside,placed.apart⟩
    obtain ⟨moved,lookup⟩ := getOrRun expired admitted rk.id out.getPeer
    have peer := moved.here
    rw [entryOf lookup] at peer
    simp only [allowed,Bool.not_true,Bool.false_eq_true,if_false,runBind]
    rw [registerAtOk,Option.some.inj peer,moved.now]
    exact ⟨fun rest => ⟨passes,rest⟩,fun rest => rest.2⟩
  · simp only [allowed,Bool.not_false,if_true]
    exact iff_of_false (by simp [Prog.run]) fun passes => allowed passes.1.2

/- A write that does not fail writes what it would write on a database that works. -/
theorem storedWorks {guid : Bytes} {table : Peers} {rk : RegisterPk} {ip : String} {newGuid guid' : Bytes} {out t}
    (works : ¬ (if guid = [] then out.insertPeer = true else out.updatePk = true))
    (stored : Stored guid table rk ip newGuid out guid' t) : Stored guid table rk ip newGuid .none guid' t := by
  cases stored with
  | inserted first ok done => exact .inserted first rfl done
  | notInserted first failed =>
    rw [if_pos first] at works
    exact .notInserted first (.inr (failed.resolve_left works))
  | updated again ok done => exact .updated again rfl done
  | notUpdated again failed =>
    rw [if_neg again] at works
    exact .notUpdated again (.inr (failed.resolve_left works))

theorem registeredWorks (placed : Placed s) {rk addr newGuid out p t} (readable : Readable s (.registerPk rk addr newGuid out))
    (uuid : rk.uuid ≠ []) (pk : rk.pk ≠ []) (works : ¬ WriteFails expired s (.registerPk rk addr newGuid out))
    (registered : Registered expired s rk addr newGuid out
      ((registerPkResult rk addr newGuid out).run (exec expired) s).1 p t) :
    Registered expired s rk addr newGuid .none ((registerPkResult rk addr newGuid out).run (exec expired) s).1 p t := by
  have ok : ((registerPkResult rk addr newGuid out).run (exec expired) s).1 = .ok → _ :=
    (registerPkOk placed rk addr newGuid out).mp
  obtain ⟨reads,_⟩ := readable
  generalize ((registerPkResult rk addr newGuid out).run (exec expired) s).1 = r at registered ok ⊢
  cases registered with
  | early held bad => exact .early held bad
  | checked passes rest =>
    refine .checked passes ?_
    rw [reads] at rest
    cases rest with
    | refused bad cause => exact .refused bad cause
    | unchanged check => exact .unchanged check
    | @changed regPk ipChanged guid t check stored =>
      refine .changed check (storedWorks (fun failed => works ?_) stored)
      obtain ⟨_,_,counted⟩ := ok rfl
      refine ⟨uuid,pk,passes,?_,counted,?_⟩
      · rw [reads]
        exact ⟨ipChanged,check⟩
      · rw [reads]
        exact failed

end Answers

section Turns
variable {expired : Nat → Nat} {s s' : Registry}

theorem settledWorks (bound : Bound s) (placed : Placed s) {rk addr newGuid out p t}
    (readable : Readable s (.registerPk rk addr newGuid out))
    (uuid : rk.uuid ≠ []) (pk : rk.pk ≠ []) (works : ¬ WriteFails expired s (.registerPk rk addr newGuid out))
    (registered : Registered expired s rk addr newGuid out
      ((registerPkResult rk addr newGuid out).run (exec expired) s).1 p t) :
    Settled expired s rk addr newGuid ((registerPkResult rk addr newGuid out).run (exec expired) s).1 p t :=
  settled bound ⟨rfl,readable.2⟩ (registeredWorks placed readable uuid pk works registered)

/- An answered OK is recorded, -/
theorem settledRecorded (bound : Bound s) {rk addr newGuid p t} (settled : Settled expired s rk addr newGuid .ok p t) :
    Recorded t rk addr := by
  cases settled with
  | refused bad same => exact absurd rfl bad
  | same here uuid pk ip =>
    obtain ⟨r,member,id,agrees⟩ := gotBound bound here
    exact ⟨r,member,id,agrees.uuid.trans uuid,agrees.pk.trans pk,by rw [agrees.info]; exact ip⟩
  | changed here member id agrees uuid one rows => exact ⟨_,(rows _).mpr (.inr rfl),id,uuid,rfl,rfl⟩
  | new none noRow rows => exact ⟨_,(rows _).mpr (.inr rfl),rfl,rfl,rfl,rfl⟩

/- and what is recorded survives. -/
theorem recordedSurvives {rk addr} (recorded : Recorded s.table rk addr) : Survives expired s rk addr := by
  obtain ⟨r,member,id,uuid,pk,ip⟩ := recorded
  have there : row s.restart rk.id = some r := by
    rw [← id]
    exact memRow.mpr member
  refine ⟨loaded (expired s.now) r,?_,uuid,pk,ip⟩
  have none : entry s.restart rk.id = none := by simp [entry,Registry.restart,Registry.init]
  rw [got,none,readable,if_neg (by simp),there]
  rfl

theorem answeringPk {rk addr newGuid out} (uuid : rk.uuid ≠ []) (pk : rk.pk ≠ []) :
    answering expired (.registerPk rk addr newGuid out) s =
      (.pk ((registerPkResult rk addr newGuid out).run (exec expired) s).1,
        ((registerPkResult rk addr newGuid out).run (exec expired) s).2) := by
  have proper : ¬ (rk.uuid.isEmpty || rk.pk.isEmpty) = true := by simp [uuid,pk]
  unfold answering program
  dsimp only
  rw [if_neg proper,runMap]

theorem answeringSilent {rk addr newGuid out} (missing : ¬ (rk.uuid ≠ [] ∧ rk.pk ≠ [])) :
    answering expired (.registerPk rk addr newGuid out) s = (.silent,s) := by
  have improper : (rk.uuid.isEmpty || rk.pk.isEmpty) = true := by
    rw [Bool.or_eq_true,List.isEmpty_iff,List.isEmpty_iff]
    tauto
  unfold answering program
  dsimp only
  rw [if_pos improper]
  rfl

theorem boundWorks (bound : Bound s) (placed : Placed s) {c id p t} (readable : Readable s c) (works : ¬ WriteFails expired s c)
    (turn : Turn expired s c (answering expired c s).1 id p t) (moved : Moved s s' id p t) : Bound s' := by
  generalize same : (answering expired c s).1 = reply at turn
  cases turn with
  | silent => exact boundStill bound moved fun q here => bound.rows _ q here
  | asked => exact boundStill bound moved fun q here => bound.rows _ q here
  | @refreshed id addr _ here known =>
    have sound : Sound s (.registerPeer id addr) := trivial
    have again : Turn expired s (.registerPeer id addr) (.peer false) id _ s.table := .refreshed here known
    exact boundTurn bound sound again moved
  | @looked id fails ref =>
    have sound : Sound s (.get id fails) := readable
    have again : Turn expired s (.get id fails) (.found ref) id _ s.table := .looked
    exact boundTurn bound sound again moved
  | pk uuid pk registered =>
    rw [answeringPk uuid pk] at same
    cases Reply.pk.inj same
    exact settledBound bound readable.2.1 uuid (settledWorks bound placed readable uuid pk works registered) moved

theorem boundWritten {now : Nat} {past} (history : History expired (fun s c => Readable s c ∧ ¬ WriteFails expired s c)
    (.init now .empty) past s) : Bound s := by
  refine historyInvariant (I := fun _ s => Bound s) (placedEmpty _ _) ?_ ?_ ?_ ?_ history
  · exact ⟨fun id p here => by simp [entry,Registry.init] at here,fun r member => absurd member notMemEmpty⟩
  · intro past s c id p t s' placed meets bound turn moved
    exact boundWorks bound placed meets.1 meets.2 turn moved
  · intro past s bound
    exact ⟨fun id p here => by simp [entry,Registry.restart,Registry.init] at here,bound.proper⟩
  · intro past s ns bound
    exact ⟨bound.rows,bound.proper⟩

/- A request whose write fails is answered OK and leaves the table as it was, -/
theorem failedSilently (placed : Placed s) {rk addr newGuid out}
    (failed : WriteFails expired s (.registerPk rk addr newGuid out)) :
    (answering expired (.registerPk rk addr newGuid out) s).1 = .pk .ok ∧
      (answering expired (.registerPk rk addr newGuid out) s).2.table = s.table := by
  obtain ⟨uuid,pk,passes,⟨ipChanged,check⟩,counted,fails⟩ := failed
  have ok : ((registerPkResult rk addr newGuid out).run (exec expired) s).1 = .ok :=
    (registerPkOk placed rk addr newGuid out).mpr ⟨passes,by rw [check]; rfl,counted⟩
  obtain ⟨p,t,registered,moved⟩ := registerPkRun expired placed rk addr newGuid out
  rw [answeringPk uuid pk,ok]
  refine ⟨rfl,moved.table.trans ?_⟩
  rw [ok] at registered
  cases registered with
  | early held bad => exact absurd rfl bad
  | checked passes rest =>
    cases rest with
    | refused bad cause => exact absurd rfl bad
    | unchanged check' =>
      exact absurd (check.symm.trans check') (by simp)
    | changed check' stored =>
      cases stored with
      | inserted first works done =>
        rw [if_pos first,works] at fails
        cases fails
      | updated again works done =>
        rw [if_neg again,works] at fails
        cases fails
      | notInserted first failed => rfl
      | notUpdated again failed => rfl

/- which did not hold what was asked for. -/
theorem failedUnrecorded (bound : Bound s) {rk addr newGuid out} (readable : Readable s (.registerPk rk addr newGuid out))
    (failed : WriteFails expired s (.registerPk rk addr newGuid out)) : ¬ Recorded s.table rk addr := by
  obtain ⟨proper,_,_,⟨ipChanged,check⟩,_,_⟩ := failed
  rw [readable.1] at check
  rintro ⟨r,member,id,uuid,pk,ip⟩
  cases there : got expired s rk.id false with
  | none => exact (gotNone there).2 r member id
  | some q =>
    obtain ⟨a,inside,mine,agrees⟩ := gotBound bound there
    cases sameId inside member (mine.trans id.symm)
    have same : found expired s rk.id false = q := by rw [found,there]; rfl
    rw [same] at check
    -- the stored peer has all that the row has, and with it nothing is changed
    simp [checkPeer,proper,← agrees.uuid,← agrees.pk,← agrees.info,uuid,pk,ip] at check

end Turns

/- As long as no write fails, a call keeps what an OK promises exactly when its own write
does not fail. -/
theorem okRecordedUnlessWriteFails {expired : Nat → Nat} {now : Nat} {past} {s : Registry}
    (history : History expired (fun s c => Readable s c ∧ ¬ WriteFails expired s c) (.init now .empty) past s)
    (c : Call) (readable : Readable s c) : Honest expired s c ↔ ¬ WriteFails expired s c := by
  have placed := historyPlaced (placedEmpty _ _) history
  have bound := boundWritten history
  constructor
  · intro honest failed
    cases c with
    | registerPk rk addr newGuid out =>
      obtain ⟨ok,table⟩ := failedSilently placed failed
      have recorded := ((honest rk addr newGuid out rfl).1 ok).1
      rw [table] at recorded
      exact failedUnrecorded bound readable failed recorded
    | _ => exact failed
  · rintro works rk addr newGuid out rfl
    refine ⟨fun ok => ?_,fun failed => absurd failed works⟩
    by_cases proper : rk.uuid ≠ [] ∧ rk.pk ≠ []
    · obtain ⟨p,t,registered,moved⟩ := registerPkRun expired placed rk addr newGuid out
      have settled := settledWorks bound placed readable proper.1 proper.2 works registered
      rw [answeringPk proper.1 proper.2] at ok ⊢
      rw [Reply.pk.inj ok] at settled
      have recorded := settledRecorded bound settled
      rw [← moved.table] at recorded
      exact ⟨recorded,recordedSurvives recorded⟩
    · rw [answeringSilent proper] at ok
      cases ok

/- A first registration whose insert fails, and the same request again on a database that works. -/
def unwritten : Call := .registerPk ⟨"100000003",[1],[2]⟩ ⟨.v4 198 51 100 7,21116⟩ [1] ⟨false,true,false⟩

def unwrittenPeer : Registry := (answering hourAgo unwritten (.init bootInstant .empty)).2

theorem failedInsertAcknowledged :
    History hourAgo Readable (.init bootInstant .empty) [(unwritten,.pk .ok)] unwrittenPeer ∧
    unwrittenPeer.table.rows = [] ∧ (answering hourAgo (request 2 7 1) unwrittenPeer).1 = .pk .ok ∧
    (answering hourAgo (request 2 7 1) unwrittenPeer).2.table.rows = [] ∧
    ¬ Honest hourAgo (.init bootInstant .empty) unwritten := by
  have ok : (answering hourAgo unwritten (.init bootInstant .empty)).1 = .pk .ok := by decide +kernel
  have none : unwrittenPeer.table.rows = [] := by decide +kernel
  have readable : Readable (.init bootInstant .empty) unwritten := ⟨rfl,by decide,fun r member => absurd member notMemEmpty⟩
  have history : History hourAgo Readable (.init bootInstant .empty)
      [(unwritten,(answering hourAgo unwritten (.init bootInstant .empty)).1)] unwrittenPeer := .call .start readable
  rw [ok] at history
  refine ⟨history,none,by decide +kernel,by decide +kernel,fun honest => ?_⟩
  obtain ⟨⟨r,member,_⟩,_⟩ := (honest _ _ _ _ rfl).1 ok
  rw [memRows] at member
  rw [show (answering hourAgo unwritten (.init bootInstant .empty)).2.table.rows = [] from none] at member
  cases member

/- With the insert done the peer moves to another IP after a restart. -/
theorem movedPeerRecorded : ∃ past,
    History hourAgo (fun s c => Readable s c ∧ ¬ WriteFails hourAgo s c) (.init bootInstant .empty) past afterFirst.restart ∧
    Honest hourAgo afterFirst.restart (request 2 8 2) ∧
    (answering hourAgo (request 2 8 2) afterFirst.restart).1 = .pk .ok := by
  have works : ∀ s pk ip guid, ¬ WriteFails hourAgo s (request pk ip guid) := by
    rintro s pk ip guid ⟨_,_,_,_,_,fails⟩
    split at fails <;> cases fails
  have first : History hourAgo (fun s c => Readable s c ∧ ¬ WriteFails hourAgo s c) (.init bootInstant .empty) _ afterFirst :=
    .call .start ⟨⟨rfl,by decide,fun r member => absurd member notMemEmpty⟩,works _ _ _ _⟩
  have readable : Readable afterFirst.restart (request 2 8 2) := by
    refine ⟨rfl,by decide,?_⟩
    have all : ∀ r ∈ afterFirst.restart.table.rows, r.guid ≠ [2] := by decide +kernel
    exact all
  exact ⟨_,.restart first,(okRecordedUnlessWriteFails (.restart first) _ readable).mpr (works _ _ _ _),by decide +kernel⟩

end OpenuuServer.PeerWrites
