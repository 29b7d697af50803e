import OpenuuServer.PeerBinding
import OpenuuServer.PeerHandshake

/-! Concurrent requests with the uuid that the id already has. Each writes memory and then, with
no lock held in between, the table; so two of them can reach memory in one order and the table
in the other. -/
namespace OpenuuServer.PeerOrder
open AtomicProgram UniqueTable IpText PeerRegistry PeerSequence PeerRaces
open PeerBinding (Agrees loadedAgrees)

/- The id has a row with this uuid, and its peer in memory is as the row says. -/
structure Stored (id : String) (uuid : Bytes) (s : Registry) : Prop where
  placed : Placed s
  row : ∃ r, row s id = some r ∧ r.guid ≠ [] ∧ r.uuid = uuid ∧ ∀ p, entry s id = some p → Agrees p r

/- A RegisterPk for the id with the stored uuid; the database works. -/
def Carries (id : String) (uuid : Bytes) : Act Call Env → Prop
  | .start (.registerPk rk _ _ out) => rk.id = id ∧ rk.uuid = uuid ∧ out = .none
  | .start _ => False
  | _ => True

/- A request that has written memory and still has to write the table. -/
def owes (w : World) (i : Nat) : Bool :=
  (w.tasks[i]?).any Task.alive && (w.didsOf i).any updates && !(w.didsOf i).any stores

def storesNext (w : World) (i : Nat) : Bool :=
  match w.next i with
  | some (.dbUpdatePk _ _ _ _ _) => true
  | _ => false

/- The request is about to write the table before another one that wrote memory earlier. -/
def overtakes (w : World) (i : Nat) : Bool :=
  storesNext w i && w.log.any fun e => updates e.did && decide (e.task ≠ i) && owes w e.task &&
    w.log.any fun e' => updates e'.did && decide (e'.task = i) && decide (e.pos < e'.pos)

/- The request is about to put a peer loaded earlier in the place of one that is in memory. -/
def reloads (w : World) (i : Nat) : Bool :=
  match w.next i with
  | some (.insertLoaded _ id) => (w.shared.map.lookup id).isSome
  | _ => false

def InTurn (w : World) : Act Call Env → Prop
  | .advance i => overtakes w i = false ∧ reloads w i = false
  | _ => True

/- Memory and table have the same key and info, and a restart brings them back. -/
def Followed (expired : Nat → Nat) (id : String) (s : Registry) : Prop :=
  ∀ p, entry s id = some p → (∃ r, row s id = some r ∧ r.pk = p.pk ∧ r.info = p.info) ∧
    ∃ q, got expired s.restart id false = some q ∧ q.pk = p.pk ∧ q.info = p.info

section Programs

/- One write of memory, then one write of the table with the same values. -/
def Paired (done : List (Did Op Resp)) : Op → Prop
  | .peerUpdate _ addr _ _ ip => ip = addr.ip.text ∧ done.any updates = false ∧ done.any stores = false
  | .dbUpdatePk guid _ pk info _ =>
    (∃ ref addr uuid ip, ⟨.peerUpdate ref addr uuid pk ip,(info,guid)⟩ ∈ done) ∧ done.any stores = false
  | _ => True

variable {rk : RegisterPk} {addr : SocketAddr} {newGuid : Bytes} {out : Outage}

def Quiet (done : List (Did Op Resp)) : Prop := done.any updates = false ∧ done.any stores = false

theorem idle {done : List (Did Op Resp)} (quiet : Quiet done) (o : Op) (r : Resp o)
    (idle : updates ⟨o,r⟩ = false ∧ stores ⟨o,r⟩ = false) : Quiet (done ++ [⟨o,r⟩]) := by
  simp [Quiet,quiet.1,quiet.2,idle.1,idle.2]

theorem updatePkPaired {id : String} {uuid pk : Bytes} {ref : LockPeer} {done} (quiet : Quiet done) :
    (PeerMap.updatePk id ref addr uuid pk addr.ip.text newGuid out).EveryAfter Paired done := by
  unfold PeerMap.updatePk act
  simp only [performIs,bindOp,bindRet,everyAfterOp]
  refine ⟨⟨rfl,quiet.1,quiet.2⟩,fun r => ?_⟩
  obtain ⟨info,guid⟩ := r
  dsimp only
  rw [everyAfterIte]
  constructor
  · intro _
    refine ⟨trivial,fun inserted => ?_⟩
    cases inserted with
    | error e => trivial
    | ok guid => exact ⟨trivial,fun _ => trivial⟩
  · intro _
    refine ⟨⟨⟨ref,addr,uuid,addr.ip.text,by simp⟩,by simp [quiet.2,stores]⟩,fun written => ?_⟩
    cases written <;> trivial

theorem registerAtPaired {ref : LockPeer} {done} (quiet : Quiet done) :
    (registerAt rk addr newGuid out ref).EveryAfter Paired done := by
  have store : ∀ {done}, Quiet done → (PeerMap.updatePk rk.id ref addr rk.uuid rk.pk addr.ip.text newGuid out >>= fun _ =>
      (.ret .ok : Prog Op Resp Result)).EveryAfter Paired done :=
    fun quiet => everyAfterBind (updatePkPaired quiet) fun _ _ => trivial
  unfold registerAt act
  simp only [performIs,bindOp,bindRet,everyAfterOp]
  refine ⟨trivial,fun stored => ?_⟩
  have read := idle quiet (.peerRead ref) stored ⟨rfl,rfl⟩
  cases checkPeer stored rk addr.ip.text with
  | none => trivial
  | some verdict =>
    obtain ⟨changed,ipChanged⟩ := verdict
    refine ⟨trivial,fun r => ?_⟩
    have counted := idle read (.regPkRead ref) r ⟨rfl,rfl⟩
    dsimp only
    cases countPk r.1 r.2 with
    | none => trivial
    | some regPk =>
      simp only [everyAfterOp,everyAfterIte,pureIsRet]
      refine ⟨trivial,fun r' => ?_⟩
      have written := idle counted (.regPkWrite ref regPk) r' ⟨rfl,rfl⟩
      refine ⟨fun _ => ⟨trivial,fun r'' => ?_⟩,fun _ => ⟨fun _ => store written,fun _ => trivial⟩⟩
      have noted := idle written (.ipChange rk.id addr.ip.text) r'' ⟨rfl,rfl⟩
      exact ⟨fun _ => store noted,fun _ => trivial⟩

theorem requestPaired : (program (.registerPk rk addr newGuid out)).EveryAfter Paired [] := by
  have nothing : Quiet [] := ⟨rfl,rfl⟩
  unfold program
  simp only [everyAfterIte,pureIsRet,everyAfterRet,implies_true,true_and]
  refine fun _ => everyAfterMap.mpr ?_
  unfold registerPkResult PeerMap.getOr PeerMap.get act
  simp only [performIs,bindOp,bindRet,everyAfterIte,everyAfterOp,pureIsRet,everyAfterRet,implies_true,true_and]
  refine fun _ => ⟨trivial,fun allowed => fun _ => ⟨trivial,fun read => ?_⟩⟩
  have looked := idle (idle nothing (.checkIpBlocker addr.ip.text rk.id) allowed ⟨rfl,rfl⟩) (.mapRead rk.id) read ⟨rfl,rfl⟩
  cases read with
  | some ref => exact registerAtPaired looked
  | none =>
    refine ⟨trivial,fun loaded => ?_⟩
    have fetched := idle looked (.dbGetPeer rk.id out.getPeer) loaded ⟨rfl,rfl⟩
    cases loaded with
    | error e => exact ⟨trivial,fun ref => registerAtPaired (idle fetched _ _ ⟨rfl,rfl⟩)⟩
    | ok row =>
      cases row <;> exact ⟨trivial,fun ref => registerAtPaired (idle fetched _ _ ⟨rfl,rfl⟩)⟩

end Programs

section States
variable {expired : Nat → Nat} {id : String} {guid uuid : Bytes} {s : Registry}

/- What a row says about a peer. -/
def face (p : Peer) : Bytes × Bytes × Bytes × PeerInfo := (p.guid,p.uuid,p.pk,p.info)

structure Kept (id : String) (guid uuid : Bytes) (s : Registry) : Prop where
  placed : Placed s
  row : ∃ r, row s id = some r ∧ r.guid = guid ∧ r.uuid = uuid
  peer : ∀ p, entry s id = some p → p.guid = guid ∧ p.uuid = uuid

/- What a request in progress knows from an operation it executed. -/
def Knows (id : String) (guid uuid : Bytes) (s : Registry) : Did Op Resp → Prop
  | ⟨.mapRead _,some ref⟩ => s.map.lookup id = some ref
  | ⟨.insertLoaded _ _,ref⟩ => s.map.lookup id = some ref
  | ⟨.dbGetPeer _ _,.ok (some r)⟩ => r.guid = guid ∧ r.uuid = uuid ∧ (s.map.lookup id = none → row s id = some r)
  | ⟨.peerUpdate ref _ _ _ ip,(info,guid')⟩ => guid' = guid ∧ info = ⟨ip⟩ ∧ s.map.lookup id = some ref
  | ⟨.dbGetPeer _ _,_⟩ | ⟨.getOrInsert _,_⟩ | ⟨.dbInsertPeer _ _ _ _ _ _,_⟩ => False
  | _ => True

/- What the state must allow for an operation of a request. -/
def Fits (id : String) (guid uuid : Bytes) (s : Registry) : Op → Prop
  | .mapRead id' => id' = id
  | .dbGetPeer id' fails => id' = id ∧ fails = false
  | .insertLoaded r id' => id' = id ∧ s.map.lookup id = none ∧ row s id = some r
  | .peerUpdate ref _ uuid' _ _ => uuid' = uuid ∧ s.map.lookup id = some ref
  | .dbUpdatePk guid' id' _ _ fails => guid' = guid ∧ id' = id ∧ fails = false
  | .getOrInsert _ | .dbInsertPeer _ _ _ _ _ _ | .guidWrite _ _ | .peerRefresh _ _ => False
  | _ => True

/- What an operation of a request does to the peer and the row of the id, said once. -/
inductive Effect (expired : Nat → Nat) (id : String) (guid : Bytes) (s s' : Registry) : Op → Prop where
  | still {o} (idle : ∀ r, updates ⟨o,r⟩ = false ∧ stores ⟨o,r⟩ = false) (map : s'.map.lookup id = s.map.lookup id)
      (peer : (entry s' id).map face = (entry s id).map face) (row : row s' id = row s id) : Effect expired id guid s s' o
  | loaded {r ref} (absent : s.map.lookup id = none) (there : PeerSequence.row s id = some r) (map : s'.map.lookup id = some ref)
      (peer : entry s' id = some (loaded (expired s.now) r)) (row : PeerSequence.row s' id = PeerSequence.row s id) :
    Effect expired id guid s s' (.insertLoaded r id)
  | updated {ref addr uuid pk ip p} (before : entry s id = some p) (map : s'.map.lookup id = some ref)
      (given : s.map.lookup id = some ref) (peer : entry s' id = some (p.register addr uuid pk ip s.now))
      (row : row s' id = row s id) : Effect expired id guid s s' (.peerUpdate ref addr uuid pk ip)
  | stored {pk info r} (there : PeerSequence.row s id = some r) (map : s'.map.lookup id = s.map.lookup id)
      (peer : entry s' id = entry s id) (row : PeerSequence.row s' id = some { r with pk := pk,info := info }) :
    Effect expired id guid s s' (.dbUpdatePk guid id pk info false)

theorem peerAmend (s : Registry) (ref ref' : LockPeer) (f : Peer → Peer) :
    (s.amend ref f).peer ref' = s.peer ref' ∨ (s.amend ref f).peer ref' = f (s.peer ref') := by
  simp only [Registry.peer,Registry.amend,List.getD_eq_getElem?_getD,List.getElem?_modify]
  by_cases same : ref.number = ref'.number
  · cases there : s.heap[ref'.number]? <;> simp [same]
  · simp [same]

theorem faceAmend (f : Peer → Peer) (keeps : ∀ p, face (f p) = face p) (s : Registry) (ref : LockPeer) :
    (entry (s.amend ref f) id).map face = (entry s id).map face := by
  have map : (s.amend ref f).map = s.map := rfl
  rw [entry,entry,map]
  cases s.map.lookup id with
  | none => rfl
  | some ref' =>
    rcases peerAmend s ref ref' f with same | changed
    · exact congrArg (fun p => some (face p)) same
    · exact (congrArg (fun p => some (face p)) changed).trans (congrArg some (keeps _))

theorem effect (kept : Kept id guid uuid s) {o : Op} (fits : Fits id guid uuid s o) :
    Effect expired id guid s (exec expired o s).2 o := by
  cases o with
  | insertLoaded r id' =>
    obtain ⟨rfl,absent,there⟩ := fits
    obtain ⟨moved,lookup⟩ := allocated kept.placed id' (loaded (expired s.now) r)
    exact .loaded absent there lookup moved.here rfl
  | peerUpdate ref addr uuid' pk ip =>
    obtain ⟨rfl,given⟩ := fits
    obtain ⟨moved,lookup⟩ := amended kept.placed given fun p => p.register addr uuid' pk ip s.now
    exact .updated (entryOf given) lookup given moved.here rfl
  | dbUpdatePk guid' id' pk info fails =>
    obtain ⟨rfl,rfl,rfl⟩ := fits
    obtain ⟨r,there,mine,_⟩ := kept.row
    obtain ⟨member,named⟩ := rowIs there
    obtain ⟨t,done,rows⟩ := rowRewritten member ⟨id',[],pk⟩ info.ip named
    have run : (exec expired (.dbUpdatePk guid' id' pk info false) s).2 = { s with table := t } := by
      rw [← mine]
      unfold rewrite at done
      simp only [exec,done]
      rfl
    rw [run]
    refine .stored there rfl rfl ?_
    have changed : ({ r with pk := pk,info := info } : PeerRow) ∈ t := (rows _).mpr (.inr rfl)
    have found := memRow (s := { s with table := t }) (r := { r with pk := pk,info := info }) |>.mpr changed
    rw [← named]
    exact found
  | regPkWrite ref regPk =>
    exact .still (fun _ => ⟨rfl,rfl⟩) rfl (faceAmend (fun p => { p with regPk := regPk }) (fun _ => rfl) s ref) rfl
  | getOrInsert id' => exact fits.elim
  | dbInsertPeer id' uuid' pk info guid' fails => exact fits.elim
  | guidWrite ref guid' => exact fits.elim
  | peerRefresh ref addr => exact fits.elim
  | _ => exact .still (fun _ => ⟨rfl,rfl⟩) rfl rfl rfl

theorem keptEffect (kept : Kept id guid uuid s) {s' : Registry} {o : Op} (fits : Fits id guid uuid s o) (placed : Placed s')
    (effect : Effect expired id guid s s' o) : Kept id guid uuid s' := by
  cases effect with
  | still idle map peer row =>
    refine ⟨placed,by rw [row]; exact kept.row,fun p here => ?_⟩
    rw [here,Option.map_some] at peer
    obtain ⟨q,there,same⟩ := Option.map_eq_some_iff.mp peer.symm
    simp only [face,Prod.mk.injEq] at same
    rw [← same.1,← same.2.1]
    exact kept.peer q there
  | loaded absent there map peer row =>
    refine ⟨placed,by rw [row]; exact kept.row,fun p here => ?_⟩
    cases Option.some.inj (peer.symm.trans here)
    obtain ⟨r,there',mine⟩ := kept.row
    cases Option.some.inj (there.symm.trans there')
    exact mine
  | updated before map given peer row =>
    refine ⟨placed,by rw [row]; exact kept.row,fun p here => ?_⟩
    cases Option.some.inj (peer.symm.trans here)
    exact ⟨(kept.peer _ before).1,fits.1⟩
  | stored there map peer row =>
    refine ⟨placed,?_,by rw [peer]; exact kept.peer⟩
    obtain ⟨r,there',mine⟩ := kept.row
    cases Option.some.inj (there.symm.trans there')
    exact ⟨_,row,mine⟩

theorem mapEffect {s' : Registry} {o : Op} (effect : Effect expired id guid s s' o) {ref : LockPeer}
    (found : s.map.lookup id = some ref) : s'.map.lookup id = some ref := by
  cases effect with
  | still idle map peer row => rw [map]; exact found
  | loaded absent there map peer row => rw [absent] at found; cases found
  | updated before map given peer row => rw [map,← given]; exact found
  | stored there map peer row => rw [map]; exact found

theorem knowsStill {s' : Registry} {o : Op} (effect : Effect expired id guid s s' o)
    (owner : ∀ pk info, o = .dbUpdatePk guid id pk info false → s.map.lookup id ≠ none) (d : Did Op Resp)
    (known : Knows id guid uuid s d) : Knows id guid uuid s' d := by
  obtain ⟨o',r⟩ := d
  cases o' with
  | mapRead id' =>
    cases r with
    | none => trivial
    | some ref => exact mapEffect effect known
  | insertLoaded row id' => exact mapEffect effect known
  | dbGetPeer id' fails =>
    cases r with
    | error e => exact known.elim
    | ok found =>
      cases found with
      | none => exact known.elim
      | some found =>
        obtain ⟨guid',uuid',fresh⟩ := known
        refine ⟨guid',uuid',fun absent => ?_⟩
        cases effect with
        | still idle map peer row => rw [row]; exact fresh (map ▸ absent)
        | loaded _ _ map _ _ => rw [map] at absent; cases absent
        | updated _ map _ _ _ => rw [map] at absent; cases absent
        | stored there map peer row => exact absurd (map ▸ absent) (owner _ _ rfl)
  | peerUpdate ref addr uuid' pk ip => exact ⟨known.1,known.2.1,mapEffect effect known.2.2⟩
  | getOrInsert id' => exact known.elim
  | dbInsertPeer id' uuid' pk info guid' fails => exact known.elim
  | _ => trivial

/- What an operation tells the request that executes it. -/
theorem learned (kept : Kept id guid uuid s) {o : Op} (fits : Fits id guid uuid s o) :
    Knows id guid uuid (exec expired o s).2 ⟨o,(exec expired o s).1⟩ := by
  cases o with
  | mapRead id' =>
    cases fits
    simp only [exec]
    cases found : s.map.lookup id with
    | none => trivial
    | some ref => exact found
  | dbGetPeer id' fails =>
    obtain ⟨rfl,rfl⟩ := fits
    obtain ⟨r,there,mine⟩ := kept.row
    have read : (exec expired (.dbGetPeer id' false) s) = (.ok (some r),s) := by
      simp only [exec,Bool.false_eq_true,if_false]
      rw [show s.table.rows.find? (fun row => row.id = id') = some r from there]
    rw [read]
    exact ⟨mine.1,mine.2,fun _ => there⟩
  | insertLoaded r id' =>
    obtain ⟨rfl,absent,there⟩ := fits
    exact (allocated kept.placed id' (loaded (expired s.now) r)).2
  | peerUpdate ref addr uuid' pk ip =>
    obtain ⟨rfl,given⟩ := fits
    exact ⟨(kept.peer _ (entryOf given)).1,rfl,given⟩
  | getOrInsert id' => exact fits.elim
  | dbInsertPeer id' uuid' pk info guid' fails => exact fits.elim
  | _ => trivial

end States

section Runs
variable {expired : Nat → Nat} {id : String} {guid uuid : Bytes} {s : Registry} {w : World}

abbrev Step (id : String) (uuid : Bytes) (w : World) (a : Act Call Env) : Prop := Carries id uuid a ∧ InTurn w a

/- The values that a write of memory leaves in the peer. -/
def wrote (p : Peer) : Did Op Resp → Prop
  | ⟨.peerUpdate _ _ _ pk ip,_⟩ => p.pk = pk ∧ p.info = ⟨ip⟩
  | _ => False

/- The request behind the last write of memory still owes it to the table. -/
structure Latest (w : World) (p : Peer) (e : Event Op Resp Call Registry) : Prop where
  member : e ∈ w.log
  owed : owes w e.task = true
  last : ∀ e' ∈ w.log, updates e'.did = true → e'.pos ≤ e.pos
  only : ∀ d ∈ w.didsOf e.task, updates d = true → d = e.did
  value : wrote p e.did

/- The row is level with the peer and nobody owes it anything, or the last write is on its way. -/
def Level (id : String) (w : World) (p : Peer) : Prop :=
  (∃ r, row w.shared id = some r ∧ r.pk = p.pk ∧ r.info = p.info) ∧ (∀ k, owes w k = false) ∨ ∃ e, Latest w p e

structure Ordered (id : String) (guid uuid : Bytes) (w : World) : Prop where
  kept : Kept id guid uuid w.shared
  known : ∀ i, w.Running i → ∀ d ∈ w.didsOf i, Knows id guid uuid w.shared d
  level : ∀ p, entry w.shared id = some p → Level id w p

theorem carried {ok : World → Act Call Env → Prop} (only : ∀ w a, ok w a → Carries id uuid a)
    (reach : (machine expired).Reach ok s w) : ∀ c ∈ w.calls, Carries id uuid (.start c) := by
  refine Machine.callsInduction (P := fun calls => ∀ c ∈ calls, Carries id uuid (.start c)) (by simp) ?_ reach
  intro w c _ meets ih c' member
  rcases List.mem_append.mp member with old | new
  · exact ih c' old
  · rw [List.mem_singleton.mp new]
    exact only w _ meets

/- The operation a request is about to execute, with what the program says about it. -/
theorem allowedNow (reach : (machine expired).Reach (Step id uuid) s w) {i c o next}
    (found : w.tasks[i]? = some ⟨c,.op o next,true⟩) : ∃ rk newGuid, rk.id = id ∧ rk.uuid = uuid ∧
      Allowed rk newGuid (w.didsOf i) o ∧ Paired (w.didsOf i) o := by
  have carries := carried (fun _ _ meets => meets.1) reach c (List.mem_of_getElem? (callAt found))
  have path := Machine.taskPath reach found
  cases c with
  | registerPk rk addr newGuid out =>
    obtain ⟨mine,same,rfl⟩ := carries
    have pairs : (program (.registerPk rk addr newGuid .none)).EveryAfter Paired [] := requestPaired
    have paired := (everyAfterOnPath path pairs).1
    simp only [machine,program] at path
    rcases pathIte path with ⟨_,silent⟩ | ⟨proper,path⟩
    · obtain ⟨_,wrong⟩ := pathRet.mp silent
      cases wrong
    · have bound : rk.uuid ≠ [] := by
        intro empty
        exact proper (by simp [empty])
      have all : (Reply.pk <$> registerPkResult rk addr newGuid .none).EveryAfter (Allowed rk newGuid) [] :=
        everyAfterMap.mpr (requestAllowed bound)
      exact ⟨rk,newGuid,mine,same,by simpa using (everyAfterOnPath path all).1,by simpa using paired⟩
  | _ => exact carries.elim

theorem fitsNow (ordered : Ordered id guid uuid w) (keyed : guid ≠ []) {i c o next}
    (found : w.tasks[i]? = some ⟨c,.op o next,true⟩) {rk newGuid} (mine : rk.id = id) (same : rk.uuid = uuid)
    (allowed : Allowed rk newGuid (w.didsOf i) o) (turn : InTurn w (.advance i)) : Fits id guid uuid w.shared o := by
  subst mine same
  have known := ordered.known i ⟨_,o,next,found⟩
  have held : ∀ {ref}, Given rk.id (w.didsOf i) ref → w.shared.map.lookup rk.id = some ref := by
    rintro ref (read | ⟨row,loaded⟩ | inserted)
    · exact known _ read
    · exact known _ loaded
    · exact (known _ inserted).elim
  cases o with
  | mapRead id' => exact allowed
  | dbGetPeer id' fails => exact allowed
  | insertLoaded r id' =>
    obtain ⟨rfl,read⟩ := allowed
    have free := turn.2
    simp only [reloads,nextIs found,Option.isSome_eq_false_iff,Option.isNone_iff_eq_none] at free
    exact ⟨rfl,free,(known _ read).2.2 free⟩
  | getOrInsert id' =>
    obtain ⟨_,none | ⟨e,failed⟩⟩ := allowed
    · exact known _ none
    · exact known _ failed
  | peerUpdate ref addr uuid' pk ip => exact ⟨allowed.1,held allowed.2.2⟩
  | dbInsertPeer id' uuid' pk info guid' fails =>
    obtain ⟨_,_,_,_,_,ref,addr,pk',ip,info',updated⟩ := allowed
    exact absurd (known _ updated).1.symm keyed
  | guidWrite ref guid' =>
    obtain ⟨id',uuid',pk,info,newGuid',fails,inserted⟩ := allowed
    exact (known _ inserted).elim
  | dbUpdatePk guid' id' pk info fails =>
    obtain ⟨rfl,_,rfl,ref,addr,pk',ip,info',updated⟩ := allowed
    exact ⟨(known _ updated).1,rfl,rfl⟩
  | peerRefresh ref addr => exact allowed.elim
  | _ => trivial

theorem owesIs {i : Nat} (owed : owes w i = true) :
    (w.tasks[i]?).any Task.alive = true ∧ (w.didsOf i).any updates = true ∧ (w.didsOf i).any stores = false := by
  simpa [owes,and_assoc] using owed

/- A request that owes the table something is under way. -/
theorem owesRuns {ok : World → Act Call Env → Prop} (reach : (machine expired).Reach ok s w) {i} (owed : owes w i = true) :
    w.Running i := by
  obtain ⟨alive,updated,unstored⟩ := owesIs owed
  obtain ⟨⟨c,prog,live⟩,found,lives⟩ := (Option.any_eq_true _ _).mp alive
  cases lives
  cases prog with
  | op o next => exact ⟨c,o,next,found⟩
  | ret reply =>
    have ended := Machine.answeredEnds (Q := fun _ => Ended) (fun _ c => requestEnded) reach ⟨_,found,rfl,rfl⟩
    rw [ended.stored updated] at unstored
    cases unstored

theorem owesPerformed {i c o next} (found : w.tasks[i]? = some ⟨c,.op o next,true⟩) (k : Nat) :
    owes ((machine expired).performed w i c o next) k =
      if i = k then ((w.didsOf i).any updates || updates ⟨o,(exec expired o w.shared).1⟩) &&
        !((w.didsOf i).any stores || stores ⟨o,(exec expired o w.shared).1⟩)
      else owes w k := by
  have bound := (List.getElem?_eq_some_iff.mp found).1
  unfold owes
  rw [Machine.didsPerformed]
  by_cases same : i = k
  · subst same
    rw [if_pos rfl,if_pos rfl]
    simp only [Machine.performed,List.getElem?_set_self bound,Option.any_some,Bool.true_and,List.any_append,List.any_cons,
      List.any_nil,Bool.or_false]
    rfl
  · rw [if_neg same,if_neg same,List.append_nil]
    simp only [Machine.performed,List.getElem?_set_ne same]

theorem owesStill {i c o next} (found : w.tasks[i]? = some ⟨c,.op o next,true⟩)
    (idle : ∀ r : Resp o, updates ⟨o,r⟩ = false ∧ stores ⟨o,r⟩ = false) (k : Nat) :
    owes ((machine expired).performed w i c o next) k = owes w k := by
  rw [owesPerformed found]
  by_cases same : i = k
  · subst same
    rw [if_pos rfl,(idle _).1,(idle _).2]
    simp [owes,found]
  · rw [if_neg same]

/- A write that was the last one of all stays it while others do something else. -/
theorem latestStill {p : Peer} {e : Event Op Resp Call Registry} (latest : Latest w p e) {i c o next}
    (other : ∀ r : Resp o, updates ⟨o,r⟩ = false) (owed : owes ((machine expired).performed w i c o next) e.task = true) :
    Latest ((machine expired).performed w i c o next) p e := by
  refine ⟨Machine.stillThere latest.member,owed,fun e' inside updated => ?_,fun d inside updated => ?_,latest.value⟩
  · rcases Machine.memPerformed.mp inside with old | rfl
    · exact latest.last e' old updated
    · rw [Machine.happening,other] at updated
      cases updated
  · rw [Machine.didsPerformed] at inside
    rcases List.mem_append.mp inside with old | new
    · exact latest.only d old updated
    · split at new
      · rw [List.mem_singleton.mp new,other] at updated
        cases updated
      · cases new

theorem sameFace {p q : Peer} (same : face p = face q) {v : World} (level : Level id v q) : Level id v p := by
  simp only [face,Prod.mk.injEq] at same
  rcases level with ⟨⟨r,there,pk,info⟩,clear⟩ | ⟨e,latest⟩
  · exact .inl ⟨⟨r,there,pk.trans same.2.2.1.symm,info.trans same.2.2.2.symm⟩,clear⟩
  · refine .inr ⟨e,latest.member,latest.owed,latest.last,latest.only,?_⟩
    have value := latest.value
    unfold wrote at value ⊢
    split at value
    · exact ⟨same.2.2.1.trans value.1,same.2.2.2.trans value.2⟩
    · exact value.elim

theorem wroteUpdates {p : Peer} {d : Did Op Resp} (value : wrote p d) : updates d = true := by
  unfold wrote at value
  split at value
  · rfl
  · exact value.elim

/- A request that owes the table something has its pointer from the map. -/
theorem owesPlaced (ordered : Ordered id guid uuid w) {ok : World → Act Call Env → Prop}
    (reach : (machine expired).Reach ok s w) {i} (owed : owes w i = true) : w.shared.map.lookup id ≠ none := by
  obtain ⟨⟨o,r⟩,member,updated⟩ := List.any_eq_true.mp (owesIs owed).2.1
  cases o with
  | peerUpdate ref addr uuid' pk ip =>
    have known := ordered.known i (owesRuns reach owed) _ member
    rw [known.2.2]
    exact nofun
  | _ => cases updated

/- The write that comes last in memory reaches the table when nobody is overtaken. -/
theorem levelStored (ordered : Ordered id guid uuid w) {ok : World → Act Call Env → Prop}
    (reach : (machine expired).Reach ok s w) {i c pk info next}
    (found : w.tasks[i]? = some ⟨c,.op (.dbUpdatePk guid id pk info false) next,true⟩)
    (paired : Paired (w.didsOf i) (.dbUpdatePk guid id pk info false)) (free : overtakes w i = false) {r : PeerRow}
    (row : row ((machine expired).performed w i c (.dbUpdatePk guid id pk info false) next).shared id =
      some { r with pk := pk,info := info }) {p : Peer} (level : Level id w p) :
    Level id ((machine expired).performed w i c (.dbUpdatePk guid id pk info false) next) p := by
  obtain ⟨⟨ref,addr,uuid',ip,update⟩,unstored⟩ := paired
  have updated : (w.didsOf i).any updates = true := List.any_eq_true.mpr ⟨_,update,rfl⟩
  have other : ∀ {k}, i ≠ k → owes ((machine expired).performed w i c (.dbUpdatePk guid id pk info false) next) k = owes w k := by
    intro k apart
    rw [owesPerformed found,if_neg apart]
  rcases level with ⟨_,clear⟩ | ⟨e,latest⟩
  · have owed : owes w i = true := by simp [owes,found,updated,unstored]
    rw [clear i] at owed
    cases owed
  · by_cases mine : e.task = i
    · have same := latest.only _ (by rw [mine]; exact update) rfl
      have value := latest.value
      rw [← same] at value
      refine .inl ⟨⟨_,row,value.1.symm,?_⟩,fun k => ?_⟩
      · exact (ordered.known i ⟨c,_,next,found⟩ _ update).2.1.trans value.2.symm
      · by_cases own : i = k
        · rw [owesPerformed found,if_pos own]
          simp [stores]
        · rw [other own,← Bool.not_eq_true]
          intro owed
          obtain ⟨d,member,wrote⟩ := List.any_eq_true.mp (owesIs owed).2.1
          obtain ⟨e',inside,task,rfl⟩ := didsOfMember.mp member
          have before : e'.pos < e.pos := by
            refine Nat.lt_of_le_of_ne (latest.last e' inside wrote) fun position => own ?_
            rw [← mine,← task,Machine.samePosition reach inside latest.member position]
          have late : overtakes w i = true := by
            simp only [overtakes,storesNext,nextIs found,Bool.true_and,List.any_eq_true,Bool.and_eq_true,decide_eq_true_eq]
            rw [← task] at own owed
            exact ⟨e',inside,⟨⟨wrote,Ne.symm own⟩,owed⟩,e,latest.member,⟨wroteUpdates latest.value,mine⟩,before⟩
          rw [late] at free
          cases free
    · exact .inr ⟨e,latestStill latest (fun _ => rfl) (by rw [other (Ne.symm mine)]; exact latest.owed)⟩

theorem levelPerformed (ordered : Ordered id guid uuid w) (reach : (machine expired).Reach (Step id uuid) s w) {i c o next}
    (found : w.tasks[i]? = some ⟨c,.op o next,true⟩) (paired : Paired (w.didsOf i) o) (turn : InTurn w (.advance i))
    (effect : Effect expired id guid w.shared (exec expired o w.shared).2 o) :
    ∀ p, entry (exec expired o w.shared).2 id = some p → Level id ((machine expired).performed w i c o next) p := by
  intro p here
  cases effect with
  | still idle map peer row =>
    rw [here,Option.map_some] at peer
    obtain ⟨q,there,same⟩ := Option.map_eq_some_iff.mp peer.symm
    refine sameFace same.symm ?_
    rcases ordered.level q there with ⟨⟨r,inside,pk,info⟩,clear⟩ | ⟨e,latest⟩
    · exact .inl ⟨⟨r,row.trans inside,pk,info⟩,fun k => (owesStill found idle k).trans (clear k)⟩
    · exact .inr ⟨e,latestStill latest (fun r => (idle r).1) ((owesStill found idle _).trans latest.owed)⟩
  | loaded absent there map peer row =>
    cases Option.some.inj (peer.symm.trans here)
    refine .inl ⟨⟨_,row.trans there,rfl,rfl⟩,fun k => ?_⟩
    rw [owesStill found (fun _ => ⟨rfl,rfl⟩),← Bool.not_eq_true]
    exact fun owed => owesPlaced ordered reach owed absent
  | @updated ref addr uuid' pk ip q before map given peer row =>
    cases Option.some.inj (peer.symm.trans here)
    obtain ⟨_,fresh,unstored⟩ := paired
    refine .inr ⟨_,Machine.happened,?_,fun e inside _ => ?_,fun d inside updated => ?_,⟨rfl,rfl⟩⟩
    · rw [Machine.happening,owesPerformed found,if_pos rfl,unstored]
      simp [updates,stores]
    · rcases Machine.memPerformed.mp inside with old | rfl
      · exact Nat.le_of_lt (Machine.olderPosition reach old)
      · exact Nat.le_refl _
    · rw [Machine.didsPerformed,Machine.happening,if_pos rfl] at inside
      rcases List.mem_append.mp inside with old | new
      · have wrong : (w.didsOf i).any updates = true := List.any_eq_true.mpr ⟨d,old,updated⟩
        rw [fresh] at wrong
        cases wrong
      · exact List.mem_singleton.mp new
  | stored there map peer row =>
    rw [peer] at here
    exact levelStored ordered reach found paired turn.1 row (ordered.level p here)

theorem owesStarted {ok : World → Act Call Env → Prop} (reach : (machine expired).Reach ok s w) (c : Call) (k : Nat) :
    owes ((machine expired).started w c) k = owes w k := by
  have dids : ((machine expired).started w c).didsOf k = w.didsOf k := rfl
  unfold owes
  rw [dids]
  rcases Nat.lt_trichotomy k w.tasks.length with low | rfl | high
  · rw [Machine.started,List.getElem?_append_left low]
  · rw [Machine.nothingDone reach]
    simp
  · rw [Machine.started,List.getElem?_eq_none (by simp; omega),List.getElem?_eq_none (by omega)]

theorem sameOwes {v : World} {p : Peer} (shared : row v.shared id = row w.shared id) (log : v.log = w.log)
    (owed : ∀ k, owes v k = owes w k) (level : Level id w p) : Level id v p := by
  have dids : ∀ k, v.didsOf k = w.didsOf k := fun k => by rw [Pool.didsOf,Pool.eventsOf,log]; rfl
  rcases level with ⟨⟨r,there,same⟩,clear⟩ | ⟨e,latest⟩
  · exact .inl ⟨⟨r,shared.trans there,same⟩,fun k => (owed k).trans (clear k)⟩
  · exact .inr ⟨e,by rw [log]; exact latest.member,(owed _).trans latest.owed,by rw [log]; exact latest.last,
      by rw [dids]; exact latest.only,latest.value⟩

theorem runOrdered (keyed : guid ≠ []) (first : Ordered id guid uuid (Machine.initial s))
    (reach : (machine expired).Reach (Step id uuid) s w) : Ordered id guid uuid w := by
  refine Machine.invariant (I := Ordered id guid uuid) first ?_ ?_ ?_ reach
  · intro w c before _ ih
    exact ⟨ih.kept,Machine.knownStarted before ih.known c,
      fun p here => sameOwes (w := w) rfl rfl (owesStarted before c) (ih.level p here)⟩
  · intro w i c o next before meets found _ ih
    obtain ⟨rk,newGuid,mine,same,allowed,paired⟩ := allowedNow before found
    have fits := fitsNow ih keyed found mine same allowed meets.2
    have done : Effect expired id guid w.shared (exec expired o w.shared).2 o := effect ih.kept fits
    have owner : ∀ pk info, o = .dbUpdatePk guid id pk info false → w.shared.map.lookup id ≠ none := by
      rintro pk info rfl
      obtain ⟨⟨ref,addr,uuid',ip,update⟩,_⟩ := paired
      rw [(ih.known i ⟨c,_,next,found⟩ _ update).2.2]
      exact nofun
    exact ⟨keptEffect ih.kept fits (PeerHandshake.placedExec ih.kept.placed o) done,
      Machine.knownPerformed ih.known found (knowsStill done owner) (learned ih.kept fits),
      levelPerformed ih before found paired meets.2 done⟩
  · intro w e before _ ih
    cases e with
    | tick ns =>
      refine ⟨⟨⟨ih.kept.placed.inside,ih.kept.placed.apart⟩,ih.kept.row,ih.kept.peer⟩,?_,fun p here => ?_⟩
      · exact Machine.knownDisturbed ih.known (.inr fun d known => known)
      · exact sameOwes (w := w) rfl rfl (fun _ => rfl) (ih.level p here)
    | restart =>
      have gone : entry ((machine expired).disturbed w .restart).shared id = none := rfl
      refine ⟨⟨placedEmpty _ _,ih.kept.row,fun p here => ?_⟩,Machine.knownDisturbed ih.known (.inl rfl),fun p here => ?_⟩
      all_goals
        rw [gone] at here
        cases here

/- As long as no request overtakes another on its way to the table, or puts an old copy of the
peer into memory, memory and table agree whenever no request is in progress. -/
theorem followedInTurn {s : Registry} (stored : Stored id uuid s) (reach : (machine expired).Reach (Step id uuid) s w)
    (idle : w.Idle) : Followed expired id w.shared := by
  obtain ⟨placed,r,there,keyed,rfl,agrees⟩ := stored
  have first : Ordered id r.guid r.uuid (Machine.initial s) := by
    refine ⟨⟨placed,⟨r,there,rfl,rfl⟩,fun p here => ?_⟩,?_,fun p here => ?_⟩
    · exact ⟨(agrees p here).guid.symm,(agrees p here).uuid.symm⟩
    · rintro i ⟨c,o,next,found⟩
      simp [Machine.initial] at found
    · exact .inl ⟨⟨r,there,(agrees p here).pk,(agrees p here).info⟩,fun k => by simp [owes,Machine.initial]⟩
  have ordered := runOrdered keyed first reach
  have clear : ∀ k, owes w k = false := by
    intro k
    rw [← Bool.not_eq_true]
    intro owed
    obtain ⟨c,o,next,found⟩ := owesRuns reach owed
    obtain ⟨value,returned⟩ := idle _ (List.mem_of_getElem? found) rfl
    cases returned
  intro p here
  rcases ordered.level p here with ⟨⟨r',inside,pk,info⟩,_⟩ | ⟨e,latest⟩
  · have again : got expired w.shared.restart id false = some (loaded (expired w.shared.now) r') := by
      have read : row w.shared.restart id = some r' := inside
      have gone : entry w.shared.restart id = none := rfl
      rw [got,gone,readable,if_neg (by decide),read]
      rfl
    exact ⟨⟨r',inside,pk,info⟩,_,again,pk,info⟩
  · have owed := latest.owed
    rw [clear] at owed
    cases owed

end Runs

instance (id : String) (uuid : Bytes) : (a : Act Call Env) → Decidable (Carries id uuid a)
  | .start (.registerPk rk _ _ out) => inferInstanceAs (Decidable (rk.id = id ∧ rk.uuid = uuid ∧ out = .none))
  | .start (.registerPeer _ _) | .start (.get _ _) => .isFalse fun wrong => wrong
  | .advance _ | .env _ => .isTrue trivial

instance (w : World) : (a : Act Call Env) → Decidable (InTurn w a)
  | .advance i => inferInstanceAs (Decidable (overtakes w i = false ∧ reloads w i = false))
  | .start _ | .env _ => .isTrue trivial

/- The stored uuid with a key of its own, from the stored address. -/
def withKey (pk : UInt8) : Call := .registerPk ⟨"100000003",[1],[pk]⟩ ⟨.v4 198 51 100 7,21116⟩ [9] .none

def storedPeer : Registry := (answering hourAgo (withKey 2) (.init bootInstant .empty)).2

theorem storedOnce : Stored "100000003" [1] storedPeer ∧ Stored "100000003" [1] storedPeer.restart := by
  have peer : (entry storedPeer "100000003").map face = some ([9],[1],[2],⟨"198.51.100.7"⟩) := by decide +kernel
  have there : row storedPeer "100000003" = some ⟨[9],"100000003",[1],[2],⟨"198.51.100.7"⟩⟩ := by decide +kernel
  have once : History hourAgo (fun _ _ => True) _ _ storedPeer := .call .start trivial
  have placed : Placed storedPeer := historyPlaced (placedEmpty bootInstant .empty) once
  refine ⟨⟨placed,_,there,nofun,rfl,fun p here => ?_⟩,⟨placedEmpty _ _,_,there,nofun,rfl,nofun⟩⟩
  rw [here,Option.map_some,Option.some.injEq] at peer
  simp only [face,Prod.mk.injEq] at peer
  exact ⟨peer.1.symm,peer.2.1.symm,peer.2.2.1.symm,peer.2.2.2.symm⟩

/- The key in memory, the key in the table, and whether every request has returned. -/
def outcome (w : World) : Option Bytes × Option Bytes × Bool :=
  ((entry w.shared "100000003").map Peer.pk,(row w.shared "100000003").map PeerRow.pk,
    w.tasks.all fun t => t.prog.result.isSome)

theorem outcomeIdle {w : World} {memory table : Option Bytes} (same : outcome w = (memory,table,true)) : w.Idle := by
  intro t member _
  have returned := List.all_eq_true.mp (congrArg (fun o => o.2.2) same) t member
  obtain ⟨c,prog,alive⟩ := t
  cases prog with
  | ret value => exact ⟨value,rfl⟩
  | op o next => cases returned

theorem outcomeDiffers {w : World} {memory table : Bytes} (same : outcome w = (some memory,some table,true))
    (apart : memory ≠ table) : ¬ Followed hourAgo "100000003" w.shared := by
  simp only [outcome,Prod.mk.injEq] at same
  obtain ⟨p,here,pk⟩ := Option.map_eq_some_iff.mp same.1
  obtain ⟨r,there,pk'⟩ := Option.map_eq_some_iff.mp same.2.1
  intro followed
  obtain ⟨⟨r',there',value,_⟩,_⟩ := followed p here
  cases Option.some.inj (there.symm.trans there')
  exact apart (pk.symm.trans (value.symm.trans pk'))

/- Two requests write memory in one order and the table in the other. -/
def crossingActs : List (Act Call Env) :=
  [.start (withKey 3),.start (withKey 4)] ++ advances 0 6 ++ advances 1 7 ++ advances 0 1

/- After a restart, a request that changes nothing puts back the peer it had loaded before the other
one registered its key. -/
def reloadingActs : List (Act Call Env) :=
  [.start (withKey 3),.start (withKey 2)] ++ advances 0 3 ++ advances 1 3 ++ advances 0 6 ++ advances 1 4

/- Requests with the stored uuid, in a run without one of the two mishaps. -/
def Without (bad : World → Nat → Bool) (w : World) (a : Act Call Env) : Prop :=
  Carries "100000003" [1] a ∧ ∀ i, a = .advance i → bad w i = false

def without (bad : World → Nat → Bool) (w : World) (a : Act Call Env) : Bool :=
  decide (Carries "100000003" [1] a) && match a with
    | .advance i => !bad w i
    | _ => true

theorem withoutSound (bad : World → Nat → Bool) (w : World) (a : Act Call Env) (holds : without bad w a = true) :
    Without bad w a := by
  obtain ⟨carries,free⟩ := Bool.and_eq_true_iff.mp holds
  refine ⟨of_decide_eq_true carries,?_⟩
  rintro i rfl
  simpa using free

theorem writesCross : Stored "100000003" [1] storedPeer ∧ Stored "100000003" [1] storedPeer.restart ∧
    (∃ w, (machine hourAgo).Reach (Without reloads) storedPeer w ∧ w.Idle ∧ ¬ Followed hourAgo "100000003" w.shared) ∧
    ∃ w, (machine hourAgo).Reach (Without overtakes) storedPeer.restart w ∧ w.Idle ∧
      ¬ Followed hourAgo "100000003" w.shared := by
  refine ⟨storedOnce.1,storedOnce.2,?_,?_⟩
  · obtain ⟨w,reach,same⟩ := Machine.reachWith (m := machine hourAgo) (s := storedPeer) (Without reloads) (without reloads)
      (withoutSound reloads) crossingActs (P := fun w => outcome w = (some [4],some [3],true)) (by decide +kernel)
    exact ⟨w,reach,outcomeIdle (of_decide_eq_true same),outcomeDiffers (of_decide_eq_true same) (by decide)⟩
  · obtain ⟨w,reach,same⟩ := Machine.reachWith (m := machine hourAgo) (s := storedPeer.restart) (Without overtakes)
      (without overtakes) (withoutSound overtakes) reloadingActs (P := fun w => outcome w = (some [2],some [3],true))
      (by decide +kernel)
    exact ⟨w,reach,outcomeIdle (of_decide_eq_true same),outcomeDiffers (of_decide_eq_true same) (by decide)⟩

/- The same two requests, overlapping but in turn. -/
theorem writesInTurn : ∃ w, (machine hourAgo).Reach (Step "100000003" [1]) storedPeer w ∧
    outcome w = (some [4],some [4],true) ∧ Followed hourAgo "100000003" w.shared := by
  obtain ⟨w,reach,same⟩ := Machine.reachWith (m := machine hourAgo) (s := storedPeer) (Step "100000003" [1])
    (fun w a => decide (Carries "100000003" [1] a ∧ InTurn w a)) (fun _ _ => of_decide_eq_true)
    ([.start (withKey 3),.start (withKey 4)] ++ advances 0 6 ++ advances 1 6 ++ advances 0 1 ++ advances 1 1)
    (P := fun w => outcome w = (some [4],some [4],true)) (by decide +kernel)
  have same := of_decide_eq_true same
  exact ⟨w,reach,same,followedInTurn storedOnce.1 reach (outcomeIdle same)⟩

end OpenuuServer.PeerOrder
