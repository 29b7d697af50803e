import OpenuuServer.PeerSequence

/-! The binding of an id to its uuid over whole histories. With a database that works, memory
and table agree and the binding holds; a RegisterPeer cannot redirect a peer. When reading the
table can fail, one kind of request gets past the binding. -/
namespace OpenuuServer.PeerBinding
open AtomicProgram UniqueTable IpText PeerRegistry PeerSequence

/- The row has what the peer in memory has. -/
structure Agrees (p : Peer) (r : PeerRow) : Prop where
  guid : r.guid = p.guid
  uuid : r.uuid = p.uuid
  pk : r.pk = p.pk
  info : r.info = p.info

structure Bound (s : Registry) : Prop where
  rows : ∀ id p, entry s id = some p → ∃ r ∈ s.table, r.id = id ∧ Agrees p r
  proper : ∀ r ∈ s.table, r.guid ≠ [] ∧ r.uuid ≠ []

/- The database works, and a new guid is not in use. -/
def Sound (s : Registry) : Call → Prop
  | .registerPk _ _ newGuid out => out = .none ∧ newGuid ≠ [] ∧ ∀ r ∈ s.table, r.guid ≠ newGuid
  | .get _ fails => fails = false
  | .registerPeer _ _ => True

section Turns
variable {expired : Nat → Nat} {s s' : Registry}

theorem loadedAgrees (now : Nat) (r : PeerRow) : Agrees (loaded now r) r := ⟨rfl,rfl,rfl,rfl⟩

theorem gotBound (bound : Bound s) {id p fails} (got : got expired s id fails = some p) :
    ∃ r ∈ s.table, r.id = id ∧ Agrees p r := by
  unfold PeerSequence.got at got
  cases here : entry s id with
  | some q =>
    rw [here] at got
    cases Option.some.inj got
    exact bound.rows id _ here
  | none =>
    rw [here,Option.none_or,Option.map_eq_some_iff] at got
    obtain ⟨r,read,rfl⟩ := got
    unfold readable at read
    split at read <;> try contradiction
    obtain ⟨member,same⟩ := rowIs read
    exact ⟨r,member,same,loadedAgrees _ r⟩

theorem gotNone {id} (absent : got expired s id false = none) : entry s id = none ∧ ∀ r ∈ s.table, r.id ≠ id := by
  unfold got at absent
  rw [Option.or_eq_none_iff,Option.map_eq_none_iff] at absent
  exact ⟨absent.1,rowNone absent.2⟩

theorem boundStill (bound : Bound s) {id p} (moved : Moved s s' id p s.table)
    (agrees : ∀ q, p = some q → ∃ r ∈ s.table, r.id = id ∧ Agrees q r) : Bound s' := by
  refine ⟨fun other q here => ?_,?_⟩
  · rw [moved.table]
    by_cases same : other = id
    · subst same
      exact agrees q (moved.here.symm.trans here)
    · exact bound.rows other q ((moved.there other same).symm.trans here)
  · rw [moved.table]
    exact bound.proper

variable (expired s) in
/- What a RegisterPk comes to when the database works. -/
inductive Settled (rk : RegisterPk) (addr : SocketAddr) (newGuid : Bytes) : Result → Option Peer → Peers → Prop where
  | refused {r p} (bad : r ≠ .ok) (same : p = entry s rk.id ∨ p = got expired s rk.id false) :
    Settled rk addr newGuid r p s.table
  | same {regPk q} (here : got expired s rk.id false = some q) (uuid : q.uuid = rk.uuid) (pk : q.pk = rk.pk)
      (ip : q.info.ip = addr.ip.text) : Settled rk addr newGuid .ok (some { q with regPk := regPk }) s.table
  | changed {regPk q r t} (here : got expired s rk.id false = some q) (member : r ∈ s.table) (id : r.id = rk.id)
      (agrees : Agrees q r) (uuid : r.uuid = rk.uuid) (one : r.info.ip = addr.ip.text ∨ r.pk = rk.pk)
      (rows : ∀ a, a ∈ t ↔ a ∈ s.table ∧ a ≠ r ∨ a = { r with pk := rk.pk,info := ⟨addr.ip.text⟩ }) :
    Settled rk addr newGuid .ok (some (written { q with regPk := regPk } rk addr s.now r.guid)) t
  | new {regPk t} (none : entry s rk.id = none) (noRow : ∀ r ∈ s.table, r.id ≠ rk.id)
      (rows : ∀ a, a ∈ t ↔ a ∈ s.table ∨ a = newRow rk addr.ip.text newGuid) :
    Settled rk addr newGuid .ok
      (some (written { Peer.fresh (expired s.now) with regPk := regPk } rk addr s.now newGuid)) t

theorem settled (bound : Bound s) {rk addr newGuid r p t} (sound : Sound s (.registerPk rk addr newGuid .none))
    (registered : Registered expired s rk addr newGuid .none r p t) : Settled expired s rk addr newGuid r p t := by
  obtain ⟨_,_,unused⟩ := sound
  cases registered with
  | early held bad => exact .refused bad (.inl rfl)
  | checked passes rest =>
    cases there : got expired s rk.id false with
    | none =>
      -- neither peer nor row: a new peer passes every check and is inserted
      obtain ⟨noEntry,noRow⟩ := gotNone there
      have fresh : found expired s rk.id false = .fresh (expired s.now) := by rw [found,there]; rfl
      simp only [Outage.none] at rest
      rw [fresh] at rest
      cases rest with
      | refused bad cause =>
        rw [checkFresh] at cause
        rcases cause with wrong | wrong
        · cases wrong
        · exact absurd wrong (by simp [Peer.fresh])
      | unchanged check =>
        rw [checkFresh] at check
        cases check
      | changed check stored =>
        cases stored with
        | inserted first works done => exact .new noEntry noRow fun a => memInsert done
        | notInserted first failed =>
          have free : (s.table.insert (newRow rk addr.ip.text newGuid)).isSome = true :=
            insertIsSome.mpr fun a member => not_or.mpr ⟨unused a member,noRow a member⟩
          rcases failed with failed | failed
          · cases failed
          · rw [failed] at free; cases free
        | updated again works done => exact absurd rfl again
        | notUpdated again failed => exact absurd rfl again
    | some q =>
      have same : found expired s rk.id false = q := by rw [found,there]; rfl
      obtain ⟨r,member,id,agrees⟩ := gotBound bound there
      obtain ⟨guid,uuid⟩ := bound.proper r member
      have mine : q.uuid ≠ [] := by rw [← agrees.uuid]; exact uuid
      simp only [Outage.none] at rest
      rw [same] at rest
      cases rest with
      | refused bad cause => exact .refused bad (.inr there.symm)
      | unchanged check =>
        obtain ⟨_,uuid,pk,ip⟩ := checkSame check
        exact .same there uuid pk ip
      | changed check stored =>
        obtain ⟨t,done,rows⟩ := rowRewritten member rk addr.ip.text id
        have known : r.uuid = rk.uuid := agrees.uuid.trans ((checkUuid check).resolve_left mine)
        have one : r.info.ip = addr.ip.text ∨ r.pk = rk.pk := by
          rw [agrees.info,agrees.pk]
          exact checkOne check mine
        rw [agrees.guid] at done guid
        cases stored with
        | inserted first works done => exact absurd first guid
        | notInserted first failed => exact absurd first guid
        | updated again works done' =>
          cases Option.some.inj (done.symm.trans done')
          rw [← agrees.guid]
          exact .changed there member id agrees known one rows
        | notUpdated again failed =>
          rcases failed with failed | failed
          · cases failed
          · rw [done] at failed; cases failed

theorem settledBound (bound : Bound s) {rk addr newGuid r p t} (guid : newGuid ≠ []) (uuid : rk.uuid ≠ [])
    (settled : Settled expired s rk addr newGuid r p t) (moved : Moved s s' rk.id p t) : Bound s' := by
  have other : ∀ id q, id ≠ rk.id → entry s' id = some q → ∃ r ∈ s.table, r.id = id ∧ Agrees q r :=
    fun id q apart here => bound.rows id q ((moved.there id apart).symm.trans here)
  cases settled with
  | refused bad same =>
    refine boundStill bound moved fun q here => ?_
    rcases same with same | same
    · exact bound.rows _ q (same.symm.trans here)
    · exact gotBound bound (same.symm.trans here)
  | same here uuid pk ip =>
    refine boundStill bound moved fun q there => ?_
    obtain ⟨r,member,id,agrees⟩ := gotBound bound here
    cases Option.some.inj there
    exact ⟨r,member,id,agrees.guid,agrees.uuid,agrees.pk,agrees.info⟩
  | @changed regPk q r t here member id agrees uuid' one rows =>
    refine ⟨fun id' q' there => ?_,fun a there => ?_⟩
    · by_cases same : id' = rk.id
      · subst same
        cases Option.some.inj (moved.here.symm.trans there)
        exact ⟨{ r with pk := rk.pk,info := ⟨addr.ip.text⟩ },by rw [moved.table]; exact (rows _).mpr (.inr rfl),
          id,rfl,uuid',rfl,rfl⟩
      · obtain ⟨a,inside,mine,agrees'⟩ := other id' q' same there
        have apart : a ≠ r := fun h => same (by rw [← mine,h,id])
        exact ⟨a,by rw [moved.table]; exact (rows a).mpr (.inl ⟨inside,apart⟩),mine,agrees'⟩
    · rw [moved.table] at there
      rcases (rows a).mp there with ⟨inside,_⟩ | rfl
      · exact bound.proper a inside
      · exact bound.proper r member
  | @new regPk t none noRow rows =>
    refine ⟨fun id' q' there => ?_,fun a there => ?_⟩
    · by_cases same : id' = rk.id
      · subst same
        cases Option.some.inj (moved.here.symm.trans there)
        exact ⟨_,by rw [moved.table]; exact (rows _).mpr (.inr rfl),rfl,rfl,rfl,rfl,rfl⟩
      · obtain ⟨a,inside,mine,agrees⟩ := other id' q' same there
        exact ⟨a,by rw [moved.table]; exact (rows a).mpr (.inl inside),mine,agrees⟩
    · rw [moved.table] at there
      rcases (rows a).mp there with inside | rfl
      · exact bound.proper a inside
      · exact ⟨guid,uuid⟩

theorem boundTurn (bound : Bound s) {c reply id p t} (sound : Sound s c) (turn : Turn expired s c reply id p t)
    (moved : Moved s s' id p t) : Bound s' := by
  cases turn with
  | silent => exact boundStill bound moved fun q here => bound.rows _ q here
  | asked => exact boundStill bound moved fun q here => bound.rows _ q here
  | refreshed here known =>
    refine boundStill bound moved fun q there => ?_
    obtain ⟨r,member,id,agrees⟩ := bound.rows _ _ here
    cases Option.some.inj there
    exact ⟨r,member,id,agrees.guid,agrees.uuid,agrees.pk,agrees.info⟩
  | looked =>
    have works : _ = false := sound
    subst works
    exact boundStill bound moved fun q there => gotBound bound there
  | pk uuid pk registered =>
    obtain ⟨rfl,guid,_⟩ := id sound
    exact settledBound bound guid uuid (settled bound sound registered) moved

theorem boundHistory {now : Nat} {past} (history : History expired Sound (.init now .empty) past s) : Bound s := by
  refine historyInvariant (I := fun _ s => Bound s) (placedEmpty _ _) ?_ ?_ ?_ ?_ history
  · exact ⟨fun id p here => by simp [entry,Registry.init] at here,fun r member => absurd member notMemEmpty⟩
  · intro past s c id p t s' _ sound bound turn moved
    exact boundTurn bound sound turn moved
  · intro past s bound
    exact ⟨fun id p here => by simp [entry,Registry.restart,Registry.init] at here,bound.proper⟩
  · intro past s ns bound
    exact ⟨bound.rows,bound.proper⟩

/- A call leaves the uuid of every row alone. -/
theorem uuidTurn (bound : Bound s) {c reply id p t} (sound : Sound s c) (turn : Turn expired s c reply id p t)
    {r} (member : r ∈ s.table) : ∃ r' ∈ t, r'.id = r.id ∧ r'.uuid = r.uuid := by
  cases turn with
  | pk uuid pk registered =>
    obtain ⟨rfl,_,_⟩ := id sound
    cases settled bound sound registered with
    | refused | same => exact ⟨r,member,rfl,rfl⟩
    | @changed _ _ a _ _ _ _ _ _ _ rows =>
      by_cases same : r = a
      · subst same
        exact ⟨_,(rows _).mpr (.inr rfl),rfl,rfl⟩
      · exact ⟨r,(rows r).mpr (.inl ⟨member,same⟩),rfl,rfl⟩
    | new _ _ rows => exact ⟨r,(rows r).mpr (.inl member),rfl,rfl⟩
  | _ => exact ⟨r,member,rfl,rfl⟩

theorem uuidHistory (placed : Placed s) (bound : Bound s) {more} (later : History expired Sound s more s')
    {r} (member : r ∈ s.table) : Bound s' ∧ ∃ r' ∈ s'.table, r'.id = r.id ∧ r'.uuid = r.uuid := by
  refine historyInvariant (I := fun _ s' => Bound s' ∧ ∃ r' ∈ s'.table, r'.id = r.id ∧ r'.uuid = r.uuid)
    placed ⟨bound,r,member,rfl,rfl⟩ ?_ ?_ ?_ later
  · rintro past v c id p t v' _ sound ⟨bound,a,inside,id',uuid⟩ turn moved
    obtain ⟨b,there,same,kept⟩ := uuidTurn bound sound turn inside
    exact ⟨boundTurn bound sound turn moved,b,by rw [moved.table]; exact there,same.trans id',kept.trans uuid⟩
  · rintro past v ⟨bound,rest⟩
    exact ⟨⟨fun id p here => by simp [entry,Registry.restart,Registry.init] at here,bound.proper⟩,rest⟩
  · rintro past v ns ⟨bound,rest⟩
    exact ⟨⟨bound.rows,bound.proper⟩,rest⟩

/- A RegisterPk that is accepted for a bound id changes one of key and IP at most; one that is
refused changes nothing. -/
def ChangesOne (s s' : Registry) (rk : RegisterPk) (reply : Reply) : Prop :=
  (reply = .pk .ok → ∀ r ∈ s.table, r.id = rk.id →
    ∃ r' ∈ s'.table, r'.id = rk.id ∧ (r'.pk = r.pk ∨ r'.info.ip = r.info.ip)) ∧
  ∀ result, reply = .pk result → result ≠ .ok →
    s'.table = s.table ∧ ∀ id p, entry s id = some p → entry s' id = some p

theorem changesOne (bound : Bound s) {rk addr newGuid out reply id p t}
    (sound : Sound s (.registerPk rk addr newGuid out))
    (turn : Turn expired s (.registerPk rk addr newGuid out) reply id p t) (moved : Moved s s' id p t) :
    ChangesOne s s' rk reply := by
  cases turn with
  | silent => exact ⟨fun wrong => (by cases wrong),fun result wrong => (by cases wrong)⟩
  | pk uuid pk registered =>
    obtain ⟨rfl,_,_⟩ := id sound
    unfold ChangesOne
    rw [moved.table]
    cases settled bound sound registered with
    | refused bad same =>
      refine ⟨fun accepted => absurd (Reply.pk.inj accepted) bad,fun _ _ _ => ⟨rfl,fun other q here => ?_⟩⟩
      by_cases mine : other = rk.id
      · subst mine
        rw [moved.here]
        rcases same with same | same
        · rw [same,here]
        · rw [same,got,here]; rfl
      · rw [moved.there other mine,here]
    | same here uuid pk ip =>
      exact ⟨fun _ r member mine => ⟨r,member,mine,.inl rfl⟩,fun _ wrong bad => absurd (Reply.pk.inj wrong).symm bad⟩
    | @changed _ _ a _ here member id agrees uuid' one rows =>
      refine ⟨fun _ r inside mine => ?_,fun _ wrong bad => absurd (Reply.pk.inj wrong).symm bad⟩
      cases sameId inside member (mine.trans id.symm)
      refine ⟨_,(rows _).mpr (.inr rfl),mine,?_⟩
      rcases one with ip | pk
      · exact .inr ip.symm
      · exact .inl pk.symm
    | new none noRow rows =>
      exact ⟨fun _ r member mine => absurd mine (noRow r member),fun _ wrong bad => absurd (Reply.pk.inj wrong).symm bad⟩

end Turns

theorem registryAgrees {expired : Nat → Nat} {now : Nat} {past} {s : Registry}
    (history : History expired Sound (.init now .empty) past s) :
    (∀ id p, entry s id = some p → ∃ r ∈ s.table, r.id = id ∧ r.guid = p.guid ∧ r.uuid = p.uuid ∧
      r.pk = p.pk ∧ r.info.ip = p.info.ip) ∧
    (∀ more s', History expired Sound s more s' → ∀ r ∈ s.table, ∃ r' ∈ s'.table, r'.id = r.id ∧ r'.uuid = r.uuid) ∧
    ∀ rk addr newGuid out, Sound s (.registerPk rk addr newGuid out) →
      ChangesOne s (answering expired (.registerPk rk addr newGuid out) s).2 rk
        (answering expired (.registerPk rk addr newGuid out) s).1 := by
  have placed := historyPlaced (placedEmpty _ _) history
  have bound := boundHistory history
  refine ⟨fun id p here => ?_,fun more s' later r member => (uuidHistory placed bound later member).2,?_⟩
  · obtain ⟨r,member,id,agrees⟩ := bound.rows id p here
    exact ⟨r,member,id,agrees.guid,agrees.uuid,agrees.pk,by rw [agrees.info]⟩
  · intro rk addr newGuid out sound
    obtain ⟨id,p,t,turn,moved⟩ := turn expired placed (.registerPk rk addr newGuid out)
    exact changesOne bound sound turn moved

def request (pk : UInt8) (ip : UInt8) (guid : UInt8) : Call :=
  .registerPk ⟨"100000003",[1],[pk]⟩ ⟨.v4 198 51 100 ip,21116⟩ [guid] .none

instance (s c) : Decidable (Sound s c) := by
  cases c <;> unfold Sound
  · exact @instDecidableAnd _ _ _ (@instDecidableAnd _ _ _ (inferInstanceAs (Decidable (∀ r ∈ s.table.rows, _))))
  · exact .isTrue trivial
  · infer_instance

/- Registered, loaded again after a restart from another IP, refused with another key. -/
def afterFirst : Registry := (answering hourAgo (request 2 7 1) (.init bootInstant .empty)).2
def afterMove : Registry := (answering hourAgo (request 2 8 2) afterFirst.restart).2

theorem movedPeerAgrees : ∃ past, History hourAgo Sound (.init bootInstant .empty) past afterMove ∧
    (∃ p, entry afterMove "100000003" = some p ∧ p.info.ip = "198.51.100.8" ∧
      ∃ r ∈ afterMove.table, r.id = "100000003" ∧ r.guid = p.guid ∧ r.uuid = p.uuid ∧ r.pk = p.pk ∧
        r.info.ip = p.info.ip) ∧
    ChangesOne afterMove (answering hourAgo (request 3 9 3) afterMove).2 ⟨"100000003",[1],[3]⟩ (.pk .uuidMismatch) := by
  have first : History hourAgo Sound (.init bootInstant .empty) _ afterFirst := .call .start (by decide +kernel)
  have second : History hourAgo Sound (.init bootInstant .empty) _ afterMove := .call (.restart first) (by decide +kernel)
  obtain ⟨agrees,_,changes⟩ := registryAgrees second
  have refused : (answering hourAgo (request 3 9 3) afterMove).1 = .pk .uuidMismatch := by decide +kernel
  have one := changes _ _ _ _ (show Sound afterMove (request 3 9 3) by decide +kernel)
  obtain ⟨p,here,ip⟩ : ∃ p, entry afterMove "100000003" = some p ∧ p.info.ip = "198.51.100.8" := by
    have shown : (entry afterMove "100000003").any (fun p => p.info.ip = "198.51.100.8") = true := by decide +kernel
    obtain ⟨p,here,ip⟩ := (Option.any_eq_true _ _).mp shown
    exact ⟨p,here,of_decide_eq_true ip⟩
  rw [← refused]
  exact ⟨_,second,⟨p,here,ip,agrees _ p here⟩,one⟩

/- The IP of a RegisterPk for the id that was answered OK, and of the last one of them. -/
def accepted (id : String) : Call × Reply → Option IpAddr
  | (.registerPk rk addr _ _,.pk .ok) => if rk.id = id then some addr.ip else none
  | _ => none

def lastOk (past : List (Call × Reply)) (id : String) : Option IpAddr := (past.filterMap (accepted id)).getLast?

theorem lastOkLater (past : List (Call × Reply)) (x : Call × Reply) (id : String) :
    lastOk (past ++ [x]) id = (accepted id x).or (lastOk past id) := by
  unfold lastOk
  rw [List.filterMap_append]
  cases there : accepted id x <;> simp [there]

/- Where a stored address may come from. -/
def Known (past : List (Call × Reply)) (id : String) (addr : SocketAddr) : Prop :=
  addr = unset ∨ addr.ip.isLoopback = true ∨ lastOk past id = some addr.ip

structure Traced (past : List (Call × Reply)) (s : Registry) : Prop where
  bound : Bound s
  rows : ∀ r ∈ s.table, ∃ ip, lastOk past r.id = some ip ∧ r.info.ip = ip.text
  known : ∀ id p, entry s id = some p → Known past id p.socketAddr

section Redirects
variable {expired : Nat → Nat} {s s' : Registry} {past : List (Call × Reply)}

/- A message that is no accepted RegisterPk for the id changes nothing about its last one. -/
theorem lastOkSame {x : Call × Reply} {id : String} (other : accepted id x = none) :
    lastOk (past ++ [x]) id = lastOk past id := by
  rw [lastOkLater,other]; rfl

theorem tracedStill (traced : Traced past s) {c reply id p} (sound : Sound s c)
    (turn : Turn expired s c reply id p s.table) (moved : Moved s s' id p s.table)
    (last : ∀ id, lastOk (past ++ [(c,reply)]) id = lastOk past id)
    (known : ∀ q, p = some q → Known past id q.socketAddr) : Traced (past ++ [(c,reply)]) s' := by
  refine ⟨boundTurn traced.bound sound turn moved,fun r member => ?_,fun other q here => ?_⟩
  · rw [moved.table] at member
    rw [last]
    exact traced.rows r member
  · unfold Known
    rw [last]
    by_cases mine : other = id
    · subst mine
      exact known q (moved.here.symm.trans here)
    · exact traced.known other q ((moved.there other mine).symm.trans here)

/- An address that `register_peer_response` accepts. -/
theorem acceptedKnown (traced : Traced past s) {id p} (here : entry s id = some p) {addr : SocketAddr}
    (quiet : requestPk p addr.ip = false) : addr.ip.isLoopback = true ∨ lastOk past id = some addr.ip := by
  obtain ⟨_,same⟩ := Bool.or_eq_false_iff.mp quiet
  unfold ipChanged at same
  rcases Bool.and_eq_false_iff.mp same with same | loopback
  · obtain ⟨r,member,rfl,agrees⟩ := traced.bound.rows id p here
    obtain ⟨ip,last,text⟩ := traced.rows r member
    split at same
    · rename_i port
      have ip' : addr.ip = p.socketAddr.ip := by simpa using same
      rw [ip']
      rcases traced.known _ p here with none | known
      · rw [none] at port
        exact absurd rfl port
      · exact known
    · have shown : addr.ip.text = p.info.ip := by simpa using same
      rw [← agrees.info,text] at shown
      exact .inr (by rw [textInjective shown]; exact last)
  · exact .inl (by simpa using loopback)

theorem gotKnown (traced : Traced past s) {id p} (got : got expired s id false = some p) :
    Known past id p.socketAddr := by
  unfold PeerSequence.got at got
  cases here : entry s id with
  | some q =>
    rw [here] at got
    cases Option.some.inj got
    exact traced.known id _ here
  | none =>
    rw [here,Option.none_or,Option.map_eq_some_iff] at got
    obtain ⟨r,_,rfl⟩ := got
    exact .inl rfl

theorem tracedTurn (traced : Traced past s) {c reply id p t} (sound : Sound s c)
    (turn : Turn expired s c reply id p t) (moved : Moved s s' id p t) : Traced (past ++ [(c,reply)]) s' := by
  have whole := turn
  cases turn with
  | silent =>
    refine tracedStill traced sound whole moved (fun id => lastOkSame ?_) fun q here => traced.known _ q here
    cases c <;> rfl
  | asked =>
    exact tracedStill traced sound whole moved (fun id => lastOkSame rfl) fun q here => traced.known _ q here
  | refreshed here known =>
    refine tracedStill traced sound whole moved (fun id => lastOkSame rfl) fun q there => ?_
    cases Option.some.inj there
    exact .inr (acceptedKnown traced here known)
  | looked =>
    have works : _ = false := sound
    subst works
    exact tracedStill traced sound whole moved (fun id => lastOkSame rfl) fun q there => gotKnown traced there
  | @pk rk addr newGuid out r p t uuid pk registered =>
    have bound := boundTurn traced.bound sound whole moved
    have works : out = .none := sound.1
    subst works
    have other : ∀ id, id ≠ rk.id → ∀ r, lastOk (past ++ [(.registerPk rk addr newGuid .none,.pk r)]) id = lastOk past id := by
      intro id apart r
      refine lastOkSame ?_
      cases r with
      | ok => exact if_neg fun same => apart same.symm
      | _ => rfl
    have mine : lastOk (past ++ [(.registerPk rk addr newGuid .none,.pk .ok)]) rk.id = some addr.ip := by
      rw [lastOkLater]
      simp [accepted]
    have away : ∀ r id q, id ≠ rk.id → entry s' id = some q →
        Known (past ++ [(.registerPk rk addr newGuid .none,.pk r)]) id q.socketAddr := by
      intro r id q apart here
      unfold Known
      rw [other id apart r]
      exact traced.known id q ((moved.there id apart).symm.trans here)
    cases settled traced.bound sound registered with
    | refused bad same =>
      refine tracedStill traced sound whole moved (fun id => lastOkSame ?_) fun q here => ?_
      · cases r with
        | ok => exact absurd rfl bad
        | _ => rfl
      · rcases same with same | same
        · exact traced.known _ q (same.symm.trans here)
        · exact gotKnown traced (same.symm.trans here)
    | @same regPk q here uuid pk ip =>
      obtain ⟨r,member,mine',agrees⟩ := gotBound traced.bound here
      obtain ⟨before,last,text⟩ := traced.rows r member
      have same : before = addr.ip := textInjective (by rw [← text,agrees.info,ip])
      rw [mine',same] at last
      refine ⟨bound,fun a there => ?_,fun id q' there => ?_⟩
      · rw [moved.table] at there
        by_cases here' : a.id = rk.id
        · rw [here']
          cases sameId there member (here'.trans mine'.symm)
          exact ⟨addr.ip,mine,by rw [agrees.info,ip]⟩
        · rw [other _ here']
          exact traced.rows a there
      · by_cases here' : id = rk.id
        · subst here'
          cases Option.some.inj (moved.here.symm.trans there)
          have known := gotKnown traced here
          unfold Known at known ⊢
          rw [mine,← last]
          exact known
        · exact away _ id q' here' there
    | @changed regPk q r t here member mine' agrees uuid' one rows =>
      refine ⟨bound,fun a there => ?_,fun id q' there => ?_⟩
      · rw [moved.table] at there
        rcases (rows a).mp there with ⟨inside,apart⟩ | rfl
        · have here' : a.id ≠ rk.id := fun same => apart (sameId inside member (same.trans mine'.symm))
          rw [other _ here']
          exact traced.rows a inside
        · exact ⟨addr.ip,by rw [show r.id = rk.id from mine']; exact mine,rfl⟩
      · by_cases here' : id = rk.id
        · subst here'
          cases Option.some.inj (moved.here.symm.trans there)
          exact .inr (.inr mine)
        · exact away _ id q' here' there
    | @new regPk t none noRow rows =>
      refine ⟨bound,fun a there => ?_,fun id q' there => ?_⟩
      · rw [moved.table] at there
        rcases (rows a).mp there with inside | rfl
        · rw [other _ (noRow a inside)]
          exact traced.rows a inside
        · exact ⟨addr.ip,mine,rfl⟩
      · by_cases here' : id = rk.id
        · subst here'
          cases Option.some.inj (moved.here.symm.trans there)
          exact .inr (.inr mine)
        · exact away _ id q' here' there

theorem tracedHistory {now : Nat} (history : History expired Sound (.init now .empty) past s) : Traced past s := by
  refine historyInvariant (I := Traced) (placedEmpty _ _) ?_ ?_ ?_ ?_ history
  · have begun : History expired Sound (.init now .empty) [] (.init now .empty) := .start
    exact ⟨boundHistory begun,fun r member => absurd member notMemEmpty,
      fun id p here => by simp [entry,Registry.init] at here⟩
  · intro past s c id p t s' _ sound traced turn moved
    exact tracedTurn traced sound turn moved
  · intro past s traced
    exact ⟨⟨fun id p here => by simp [entry,Registry.restart,Registry.init] at here,traced.bound.proper⟩,
      traced.rows,fun id p here => by simp [entry,Registry.restart,Registry.init] at here⟩
  · intro past s ns traced
    exact ⟨⟨traced.bound.rows,traced.bound.proper⟩,traced.rows,traced.known⟩

end Redirects

/- A RegisterPeer cannot redirect a peer: from a foreign IP it is asked for the key and
changes nothing. -/
theorem registerPeerNeverRedirects {expired : Nat → Nat} {now : Nat} {past} {s : Registry}
    (history : History expired Sound (.init now .empty) past s) :
    (∀ id p, entry s id = some p → p.socketAddr.ip = .v4 0 0 0 0 ∨ p.socketAddr.ip.isLoopback = true ∨
      lastOk past id = some p.socketAddr.ip) ∧
    ∀ id addr, id ≠ "" → addr.ip.isLoopback = false → lastOk past id ≠ some addr.ip →
      answering expired (.registerPeer id addr) s = (.peer true,s) := by
  have traced := tracedHistory history
  constructor
  · intro id p here
    rcases traced.known id p here with none | loopback | last
    · exact .inl (by rw [none]; rfl)
    · exact .inr (.inl loopback)
    · exact .inr (.inr last)
  · intro id addr named foreign other
    have ask : ∀ p, entry s id = some p → requestPk p addr.ip = true := by
      intro p here
      by_contra quiet
      rcases acceptedKnown traced here (Bool.eq_false_iff.mpr quiet) with loopback | last
      · rw [foreign] at loopback; cases loopback
      · exact other last
    unfold answering program
    have some : id.isEmpty = false := by
      rw [← Bool.not_eq_true,String.isEmpty_iff]
      exact named
    simp only [some,Bool.false_eq_true,if_false]
    rw [runMap,registerPeerAsked ask]

/- Loaded again after a restart, with no address, and asked about by a stranger. -/
theorem strangerIsAsked : ∃ past s, History hourAgo Sound (.init bootInstant .empty) past s ∧
    (∃ p, entry s "100000003" = some p ∧ p.socketAddr = unset ∧ lastOk past "100000003" = some (.v4 198 51 100 7)) ∧
    answering hourAgo (.registerPeer "100000003" ⟨.v4 203 0 113 5,4000⟩) s = (.peer true,s) := by
  have first : History hourAgo Sound (.init bootInstant .empty) _ afterFirst := .call .start (by decide +kernel)
  have looked : History hourAgo Sound (.init bootInstant .empty) _
      (answering hourAgo (.get "100000003" false) afterFirst.restart).2 := .call (.restart first) rfl
  obtain ⟨_,asked⟩ := registerPeerNeverRedirects looked
  have shown : (entry (answering hourAgo (.get "100000003" false) afterFirst.restart).2 "100000003").any
      (fun p => p.socketAddr = unset) = true := by decide +kernel
  obtain ⟨p,here,none⟩ := (Option.any_eq_true _ _).mp shown
  exact ⟨_,_,looked,⟨p,here,of_decide_eq_true none,by decide +kernel⟩,
    asked _ _ (by decide) (by decide) (by decide +kernel)⟩

/- Where a row binds the id to a uuid, no other uuid is answered OK or comes into memory. -/
def IdentityKept (expired : Nat → Nat) (s : Registry) (c : Call) : Prop :=
  (∀ rk addr newGuid out, c = .registerPk rk addr newGuid out → (answering expired c s).1 = .pk .ok →
    ∀ r ∈ s.table, r.id = rk.id → r.uuid ≠ [] → rk.uuid = r.uuid) ∧
  ∀ id p, entry (answering expired c s).2 id = some p →
    ∀ r ∈ (answering expired c s).2.table, r.id = id → r.uuid ≠ [] → p.uuid = r.uuid

/- A request with another uuid for a bound id that is not in memory while reading its row fails. -/
def Bypassed (s : Registry) : Call → Prop
  | .registerPk rk addr _ out => rk.uuid ≠ [] ∧ rk.pk ≠ [] ∧ Passes s rk addr ∧ s.map.lookup rk.id = none ∧
    out.getPeer = true ∧ ∃ r ∈ s.table, r.id = rk.id ∧ r.uuid ≠ [] ∧ r.uuid ≠ rk.uuid
  | _ => False

/- What holds however the database fails: memory has the uuid of the row, and a guid in memory
is the guid of the row. -/
def Faithful (table : Peers) (id : String) (p : Peer) : Prop :=
  (∀ r ∈ table, r.id = id → r.uuid ≠ [] → p.uuid = r.uuid) ∧
    (p.guid ≠ [] → ∃ r ∈ table, r.id = id ∧ r.guid = p.guid)

def Kept (s : Registry) : Prop := ∀ id p, entry s id = some p → Faithful s.table id p

section Failures
variable {expired : Nat → Nat} {s s' : Registry}

theorem keptStill (kept : Kept s) {id p} (moved : Moved s s' id p s.table)
    (here : ∀ q, p = some q → Faithful s.table id q) : Kept s' := by
  intro other q there
  rw [moved.table]
  by_cases same : other = id
  · subst same
    exact here q (moved.here.symm.trans there)
  · exact kept other q ((moved.there other same).symm.trans there)

theorem gotFaithful (kept : Kept s) {id p fails} (there : got expired s id fails = some p) :
    Faithful s.table id p := by
  unfold got at there
  cases here : entry s id with
  | some q =>
    rw [here] at there
    cases Option.some.inj there
    exact kept id _ here
  | none =>
    rw [here,Option.none_or,Option.map_eq_some_iff] at there
    obtain ⟨r,read,rfl⟩ := there
    unfold readable at read
    split at read <;> try contradiction
    obtain ⟨member,same⟩ := rowIs read
    exact ⟨fun a inside mine _ => by rw [sameId inside member (mine.trans same.symm)]; rfl,
      fun _ => ⟨r,member,same,rfl⟩⟩

/- The row that the database returns for the id, if there is one, was not read. -/
theorem gotFailed {id fails} (absent : got expired s id fails = none) {r} (member : r ∈ s.table) (same : r.id = id) :
    s.map.lookup id = none ∧ fails = true := by
  unfold got at absent
  rw [Option.or_eq_none_iff,Option.map_eq_none_iff] at absent
  obtain ⟨noEntry,unread⟩ := absent
  refine ⟨Option.map_eq_none_iff.mp noEntry,?_⟩
  cases fails with
  | true => rfl
  | false => exact absurd same (rowNone unread r member)

/- What `update_pk` writes, if the uuid it writes is that of the row. -/
theorem storedFaithful {rk : RegisterPk} {addr : SocketAddr} {newGuid guid guid' out t}
    (mine : ∀ a ∈ s.table, a.id = rk.id → a.uuid ≠ [] → rk.uuid = a.uuid)
    (owned : guid ≠ [] → ∃ r ∈ s.table, r.id = rk.id ∧ r.guid = guid)
    (stored : Stored guid s.table rk addr.ip.text newGuid out guid' t) :
    (∀ q now, Faithful t rk.id (written q rk addr now guid')) ∧
      ∀ id q, id ≠ rk.id → Faithful s.table id q → Faithful t id q := by
  cases stored with
  | inserted first works done =>
    have rows := fun a => memInsert (a := a) done
    refine ⟨fun q now => ⟨fun a there same bound => ?_,fun _ => ⟨_,(rows _).mpr (.inr rfl),rfl,rfl⟩⟩,?_⟩
    · rcases (rows a).mp there with inside | rfl
      · exact mine a inside same bound
      · rfl
    · rintro id q apart ⟨uuid,guid⟩
      refine ⟨fun a there same bound => ?_,fun some => ?_⟩
      · rcases (rows a).mp there with inside | rfl
        · exact uuid a inside same bound
        · exact absurd same.symm apart
      · obtain ⟨r,inside,same⟩ := guid some
        exact ⟨r,(rows r).mpr (.inl inside),same⟩
  | notInserted first failed => exact ⟨fun q now => ⟨mine,fun some => absurd rfl some⟩,fun _ _ _ kept => kept⟩
  | notUpdated again failed => exact ⟨fun q now => ⟨mine,owned⟩,fun _ _ _ kept => kept⟩
  | updated again works done =>
    obtain ⟨r,member,same,rfl⟩ := owned again
    obtain ⟨t',done',rows⟩ := rowRewritten member rk addr.ip.text same
    cases Option.some.inj (done.symm.trans done')
    refine ⟨fun q now => ⟨fun a there same' bound => ?_,fun _ => ⟨_,(rows _).mpr (.inr rfl),same,rfl⟩⟩,?_⟩
    · rcases (rows a).mp there with ⟨inside,_⟩ | rfl
      · exact mine a inside same' bound
      · exact mine r member same bound
    · rintro id q apart ⟨uuid,guid⟩
      refine ⟨fun a there same' bound => ?_,fun some => ?_⟩
      · rcases (rows a).mp there with ⟨inside,_⟩ | rfl
        · exact uuid a inside same' bound
        · exact absurd (same'.symm.trans same) apart
      · obtain ⟨b,inside,same',guid'⟩ := guid some
        have other : b ≠ r := fun h => apart (by rw [← same',h,same])
        exact ⟨b,(rows b).mpr (.inl ⟨inside,other⟩),same',guid'⟩

theorem checkedFaithful (kept : Kept s) {rk addr newGuid out} (uuid : rk.uuid ≠ []) (pk : rk.pk ≠ [])
    (passes : Passes s rk addr) (guarded : ¬ Bypassed s (.registerPk rk addr newGuid out)) {r p t}
    (checked : Checked (found expired s rk.id out.getPeer) s.table s.now rk addr newGuid out r p t) :
    (r = .ok → ∀ a ∈ s.table, a.id = rk.id → a.uuid ≠ [] → rk.uuid = a.uuid) ∧ Faithful t rk.id p ∧
      ∀ id q, id ≠ rk.id → Faithful s.table id q → Faithful t id q := by
  cases there : got expired s rk.id out.getPeer with
  | none =>
    have fresh : found expired s rk.id out.getPeer = .fresh (expired s.now) := by rw [found,there]; rfl
    rw [fresh] at checked
    have mine : ∀ a ∈ s.table, a.id = rk.id → a.uuid ≠ [] → rk.uuid = a.uuid := by
      intro a member same bound
      obtain ⟨noEntry,failed⟩ := gotFailed there member same
      by_contra other
      exact guarded ⟨uuid,pk,passes,noEntry,failed,a,member,same,bound,fun h => other h.symm⟩
    cases checked with
    | refused bad cause =>
      rw [checkFresh] at cause
      rcases cause with wrong | wrong
      · cases wrong
      · exact absurd wrong (by simp [Peer.fresh])
    | unchanged check =>
      rw [checkFresh] at check
      cases check
    | changed check stored =>
      obtain ⟨here,others⟩ := storedFaithful mine (fun some => absurd rfl some) stored
      exact ⟨fun _ => mine,here _ _,others⟩
  | some q =>
    have same : found expired s rk.id out.getPeer = q := by rw [found,there]; rfl
    obtain ⟨uuids,guids⟩ := gotFaithful kept there
    rw [same] at checked
    cases checked with
    | refused bad cause => exact ⟨fun ok => absurd ok bad,⟨uuids,guids⟩,fun _ _ _ kept => kept⟩
    | unchanged check =>
      obtain ⟨_,known,_⟩ := checkSame check
      exact ⟨fun _ => by rw [← known]; exact uuids,⟨uuids,guids⟩,fun _ _ _ kept => kept⟩
    | changed check stored =>
      have mine : ∀ a ∈ s.table, a.id = rk.id → a.uuid ≠ [] → rk.uuid = a.uuid := by
        intro a member id bound
        have held := uuids a member id bound
        rcases checkUuid check with none | known
        · exact absurd (held.symm.trans none) bound
        · exact known.symm.trans held
      obtain ⟨here,others⟩ := storedFaithful mine guids stored
      exact ⟨fun _ => mine,here _ _,others⟩

theorem keptTurn (kept : Kept s) {c reply id p t} (guarded : ¬ Bypassed s c) (turn : Turn expired s c reply id p t)
    (moved : Moved s s' id p t) : Kept s' ∧
      ∀ rk addr newGuid out, c = .registerPk rk addr newGuid out → reply = .pk .ok →
        ∀ r ∈ s.table, r.id = rk.id → r.uuid ≠ [] → rk.uuid = r.uuid := by
  cases turn with
  | silent =>
    exact ⟨keptStill kept moved fun q here => kept _ q here,fun _ _ _ _ _ wrong => by cases wrong⟩
  | asked =>
    exact ⟨keptStill kept moved fun q here => kept _ q here,fun _ _ _ _ _ wrong => by cases wrong⟩
  | @refreshed _ _ q here known =>
    refine ⟨keptStill kept moved fun q' there => ?_,fun _ _ _ _ _ wrong => by cases wrong⟩
    obtain ⟨uuid,guid⟩ := kept _ q here
    cases Option.some.inj there
    exact ⟨uuid,guid⟩
  | looked =>
    exact ⟨keptStill kept moved fun q there => gotFaithful kept there,fun _ _ _ _ _ wrong => by cases wrong⟩
  | pk uuid pk registered =>
    cases registered with
    | early held bad =>
      exact ⟨keptStill kept moved fun q here => kept _ q here,fun _ _ _ _ _ ok => absurd (Reply.pk.inj ok) bad⟩
    | checked passes rest =>
      rename_i rk _ _ _ _ _
      obtain ⟨answer,here,others⟩ := checkedFaithful kept uuid pk passes guarded rest
      refine ⟨fun other q there => ?_,?_⟩
      · rw [moved.table]
        by_cases same : other = rk.id
        · subst same
          cases Option.some.inj (moved.here.symm.trans there)
          exact here
        · exact others other q same (kept other q ((moved.there other same).symm.trans there))
      · rintro rk addr newGuid out same ok
        cases same
        exact answer (Reply.pk.inj ok)

theorem keptHistory {now table past}
    (history : History expired (fun s c => ¬ Bypassed s c) (.init now table) past s) : Kept s := by
  refine historyInvariant (I := fun _ s => Kept s) (placedEmpty _ _) ?_ ?_ ?_ ?_ history
  · exact fun id p here => by simp [entry,Registry.init] at here
  · intro past s c id p t s' _ guarded kept turn moved
    exact (keptTurn kept guarded turn moved).1
  · exact fun past s _ id p here => by simp [entry,Registry.restart,Registry.init] at here
  · exact fun past s ns kept => kept

/- A request that gets past the binding is answered OK. -/
theorem bypassedOk (expired : Nat → Nat) (placed : Placed s) {rk addr newGuid out}
    (bypassed : Bypassed s (.registerPk rk addr newGuid out)) :
    (answering expired (.registerPk rk addr newGuid out) s).1 = .pk .ok := by
  obtain ⟨uuid,pk,passes,noEntry,failed,_⟩ := bypassed
  have fresh : found expired s rk.id out.getPeer = .fresh (expired s.now) := by
    rw [found,got,entry,noEntry,readable,failed]; rfl
  have proper : ¬ (rk.uuid.isEmpty || rk.pk.isEmpty) = true := by simp [uuid,pk]
  obtain ⟨p,t,registered,_⟩ := registerPkRun expired placed rk addr newGuid out
  unfold answering program
  dsimp only
  rw [if_neg proper,runMap]
  generalize ((registerPkResult rk addr newGuid out).run (exec expired) s).1 = r at registered
  refine congrArg Reply.pk ?_
  cases registered with
  | early held bad => exact absurd passes held
  | checked _ rest =>
    rw [fresh] at rest
    cases rest with
    | refused bad cause =>
      rw [checkFresh] at cause
      rcases cause with wrong | wrong
      · cases wrong
      · exact absurd wrong (by simp [Peer.fresh])
    | unchanged check => rfl
    | changed check stored => rfl

theorem bypassedLost (placed : Placed s) {c} (bypassed : Bypassed s c) : ¬ IdentityKept expired s c := by
  intro kept
  cases c with
  | registerPk rk addr newGuid out =>
    have ok := bypassedOk expired placed bypassed
    obtain ⟨_,_,_,_,_,r,member,same,bound,other⟩ := bypassed
    exact other (kept.1 rk addr newGuid out rfl ok r member same bound).symm
  | _ => exact bypassed

end Failures

/- As long as no request gets past the binding, a call keeps it exactly when it does not. -/
theorem identityKeptUnlessBypassed {expired : Nat → Nat} {now : Nat} {table : Peers} {past} {s : Registry}
    (history : History expired (fun s c => ¬ Bypassed s c) (.init now table) past s) (c : Call) :
    IdentityKept expired s c ↔ ¬ Bypassed s c := by
  have placed := historyPlaced (placedEmpty _ _) history
  constructor
  · intro kept bypassed
    exact bypassedLost placed bypassed kept
  · intro guarded
    obtain ⟨id,p,t,turn,moved⟩ := turn expired placed c
    obtain ⟨kept,answer⟩ := keptTurn (keptHistory history) guarded turn moved
    exact ⟨answer,fun id p here => (kept id p here).1⟩

/- Another uuid for the id, sent while reads of the table fail or not. -/
def intruder (fails : Bool) : Call :=
  .registerPk ⟨"100000003",[2],[4]⟩ ⟨.v4 203 0 113 5,4000⟩ [2] ⟨fails,false,false⟩

theorem intruderRefusedUnlessReadFails : ∃ past,
    History hourAgo (fun s c => ¬ Bypassed s c) (.init bootInstant .empty) past afterFirst.restart ∧
    IdentityKept hourAgo afterFirst.restart (intruder false) ∧
    (answering hourAgo (intruder false) afterFirst.restart).1 = .pk .uuidMismatch := by
  have first : History hourAgo (fun s c => ¬ Bypassed s c) (.init bootInstant .empty) _ afterFirst :=
    .call .start fun ⟨_,_,_,_,failed,_⟩ => Bool.noConfusion failed
  refine ⟨_,.restart first,(identityKeptUnlessBypassed (.restart first) (intruder false)).mpr ?_,by decide +kernel⟩
  rintro ⟨_,_,_,_,failed,_⟩
  cases failed

theorem intruderAcceptedWhenReadFails : ∃ past s,
    History hourAgo (fun _ _ => True) (.init bootInstant .empty) past s ∧ ¬ IdentityKept hourAgo s (intruder true) := by
  have first : History hourAgo (fun _ _ => True) (.init bootInstant .empty) _ afterFirst := .call .start trivial
  refine ⟨_,_,.restart first,fun kept => ?_⟩
  have ok : (answering hourAgo (intruder true) afterFirst.restart).1 = .pk .ok := by decide +kernel
  have bound : ∃ r ∈ afterFirst.restart.table.rows, r.id = "100000003" ∧ r.uuid = [1] := by decide +kernel
  obtain ⟨r,member,id,uuid⟩ := bound
  have same := kept.1 _ _ _ _ rfl ok r member id (by rw [uuid]; decide)
  rw [uuid] at same
  cases same

end OpenuuServer.PeerBinding
