import OpenuuServer.OnlineAnswer
import OpenuuServer.PeerOrder
import OpenuuServer.PeerPointers

/-! Peers that hbbs knows of without having heard from them. What is loaded from table `peer` lies in
memory like a peer that registered, and only the instant of its last registration tells them apart:
an hour ago, provided that the clock goes back so far. -/
namespace OpenuuServer.PeerUnseen
open AtomicProgram RendezvousMessages RendezvousServer RendezvousPrograms RendezvousRuns PeerPointers
open PeerRegistry (Bytes SocketAddr LockPeer Registry Peer)
open PeerOnline (regTimeout)
open OnlineAnswer (byteBit)

def hour : Nat := 3600000000000

/- Instants count from the earliest one that the platform can represent. -/
def checkedSub (now duration : Nat) : Option Nat := if duration ≤ now then some (now - duration) else none

def getExpiredTime (now : Nat) : Nat := (checkedSub now hour).getD now

/- An instant that stands for "never" is taken for a recent one in the first hour only. -/
theorem expiredRecent {since now : Nat} (later : since ≤ now) :
    (now - getExpiredTime since) / 1000000 < 30000 ↔ since < hour ∧ now < since + regTimeout := by
  unfold getExpiredTime checkedSub regTimeout
  by_cases first : since < hour
  · rw [if_neg (Nat.not_le.mpr first),Option.getD_none]
    omega
  · rw [if_pos (Nat.not_lt.mp first),Option.getD_some]
    unfold hour at first ⊢
    omega

/- The operation with which a request to register the id is accepted: a RegisterPeer that needs no
key, or a RegisterPk whose key is stored. -/
def accepts (id : String) : Did Op Resp → Bool
  | ⟨.registry (.peerUpdate peer _ _ _ _),_⟩ => decide (peer.id = id)
  | ⟨.registry (.peerRefresh peer _),requestPk⟩ => !requestPk && decide (peer.id = id)
  | _ => false

def Accepted (w : World) (id : String) : Prop := ∃ e ∈ w.log, accepts id e.did = true

/- The pointer to a peer that an operation put into memory. -/
def allocated (before : Server) : Did Op Resp → Option LockPeer
  | ⟨.registry (.insertLoaded _ _),peer⟩ => some peer
  | ⟨.registry (.getOrInsert id),peer⟩ => if (entry before id).isNone then some peer else none
  | _ => none

/- A peer that was put into memory less than 30 seconds ago, in the first hour of the clock. -/
def Recent (w : World) (peer : LockPeer) : Prop :=
  ∃ e ∈ w.log, allocated e.before e.did = some peer ∧ e.before.registry.now < hour ∧
    w.shared.registry.now < e.before.registry.now + regTimeout

def asks : Op → Option LockPeer
  | .lastSeen peer => some peer
  | _ => none

/- Nobody is about to look at when such a peer registered, unless it did. -/
def Aged (w : World) : Act Call Env → Prop
  | .advance i => ∀ peer ∈ (w.next i).bind asks, Recent w peer → Accepted w peer.id
  | _ => True

def lastReg (s : Server) (peer : LockPeer) : Nat := (s.registry.peer peer).lastRegTime

/- What an operation does to the peers in memory, said once. -/
inductive Change (expired : Nat → Nat) (s s' : Server) (d : Did Op Resp) : Prop where
  | quiet (none : allocated s d = none) (map : s'.registry.map = s.registry.map)
      (length : s'.registry.heap.length = s.registry.heap.length) (times : ∀ peer, lastReg s' peer = lastReg s peer)
  | put {peer} (new : allocated s d = some peer) (number : peer.number = s.registry.heap.length)
      (map : s'.registry.map = s.registry.map.insert peer.id peer)
      (length : s'.registry.heap.length = s.registry.heap.length + 1) (time : lastReg s' peer = expired s.registry.now)
      (times : ∀ other, other.number < s.registry.heap.length → lastReg s' other = lastReg s other)
  | heard {peer} (uses : peer ∈ used d.1) (hit : accepts peer.id d = true) (none : allocated s d = none)
      (map : s'.registry.map = s.registry.map) (length : s'.registry.heap.length = s.registry.heap.length)
      (times : ∀ other, other.number ≠ peer.number → lastReg s' other = lastReg s other)

section Steps
variable {lib : Library} {expired : Nat → Nat}

theorem amendApart (s : Registry) {ref other : LockPeer} (f : Peer → Peer) (apart : other.number ≠ ref.number) :
    (s.amend ref f).peer other = s.peer other := by
  simp only [Registry.peer,Registry.amend,List.getD_eq_getElem?_getD,List.getElem?_modify,if_neg (Ne.symm apart)]
  simp

theorem amendTimes (s : Registry) (ref other : LockPeer) {f : Peer → Peer} (keeps : ∀ p, (f p).lastRegTime = p.lastRegTime) :
    ((s.amend ref f).peer other).lastRegTime = (s.peer other).lastRegTime := by
  rcases PeerOrder.peerAmend s ref other f with same | changed
  · rw [same]
  · rw [changed,keeps]

theorem allocateNew (s : Registry) (id : String) (p : Peer) :
    (s.allocate id p).2.peer (s.allocate id p).1 = p ∧
      ∀ other : LockPeer, other.number < s.heap.length → (s.allocate id p).2.peer other = s.peer other := by
  unfold Registry.allocate Registry.peer
  constructor
  · simp
  · intro other less
    simp [List.getElem?_append_left less]

theorem nowAfter (o : Op) (s : Server) : (exec lib expired o s).2.registry.now = s.registry.now := by
  rw [execRegistry]
  cases o with
  | registry o =>
    cases o with
    | getOrInsert id =>
      simp only [registryAfter,PeerRegistry.exec]
      split <;> rfl
    | dbInsertPeer id uuid pk info guid fails =>
      simp only [registryAfter,PeerRegistry.exec]
      split
      · rfl
      · split <;> rfl
    | dbUpdatePk guid id pk info fails =>
      simp only [registryAfter,PeerRegistry.exec]
      split
      · rfl
      · split <;> rfl
    | peerRefresh peer addr =>
      simp only [registryAfter,PeerRegistry.exec]
      split <;> rfl
    | _ => rfl
  | _ => rfl

theorem change (o : Op) (s : Server) : Change expired s (exec lib expired o s).2 ⟨o,(exec lib expired o s).1⟩ := by
  cases o with
  | registry o =>
    cases o with
    | insertLoaded row id =>
      obtain ⟨new,old⟩ := allocateNew s.registry id (PeerRegistry.loaded (expired s.registry.now) row)
      exact .put rfl rfl rfl (by simp [exec,PeerRegistry.exec,Registry.allocate])
        (congrArg Peer.lastRegTime new) fun other less => congrArg Peer.lastRegTime (old other less)
    | getOrInsert id =>
      cases there : s.registry.map.lookup id with
      | some ref =>
        have same : PeerRegistry.exec expired (.getOrInsert id) s.registry = (ref,s.registry) := by
          simp only [PeerRegistry.exec,there]
        have after : (exec lib expired (.registry (.getOrInsert id)) s).2.registry = s.registry := congrArg Prod.snd same
        refine .quiet ?_ (congrArg Registry.map after) (congrArg (fun r => r.heap.length) after) fun peer => ?_
        · simp [allocated,entry,there]
        · rw [lastReg,lastReg,after]
      | none =>
        have same : PeerRegistry.exec expired (.getOrInsert id) s.registry =
            s.registry.allocate id (.fresh (expired s.registry.now)) := by simp only [PeerRegistry.exec,there]
        obtain ⟨new,old⟩ := allocateNew s.registry id (.fresh (expired s.registry.now))
        rw [← same] at new old
        refine @Change.put _ _ _ _ ⟨id,s.registry.heap.length⟩ ?_ rfl ?_ ?_ ?_ fun other less =>
          congrArg Peer.lastRegTime (old other less)
        · simp only [allocated,entry,there,exec,same]
          rfl
        · simp only [exec,same]
          rfl
        · simp [exec,same,Registry.allocate]
        · have ref : (PeerRegistry.exec expired (.getOrInsert id) s.registry).1 = ⟨id,s.registry.heap.length⟩ :=
            congrArg Prod.fst same
          rw [ref] at new
          exact congrArg Peer.lastRegTime new
    | regPkWrite peer regPk =>
      exact .quiet rfl rfl (by simp [exec,PeerRegistry.exec,Registry.amend]) fun other => amendTimes _ _ _ fun _ => rfl
    | guidWrite peer guid =>
      exact .quiet rfl rfl (by simp [exec,PeerRegistry.exec,Registry.amend]) fun other => amendTimes _ _ _ fun _ => rfl
    | peerUpdate peer addr uuid pk ip =>
      exact @Change.heard _ _ _ _ peer (.head _) (decide_eq_true rfl) rfl rfl (by simp [exec,PeerRegistry.exec,Registry.amend])
        fun other apart => congrArg Peer.lastRegTime (amendApart _ _ apart)
    | peerRefresh peer addr =>
      cases ask : PeerRegistry.requestPk (s.registry.peer peer) addr.ip with
      | true =>
        have after : (exec lib expired (.registry (.peerRefresh peer addr)) s).2.registry = s.registry := by
          simp [exec,PeerRegistry.exec,ask]
        refine .quiet rfl (congrArg Registry.map after) (congrArg (fun r => r.heap.length) after) fun other => ?_
        rw [lastReg,lastReg,after]
      | false =>
        have after : (exec lib expired (.registry (.peerRefresh peer addr)) s).2.registry =
            s.registry.amend peer fun p => { p with socketAddr := addr,lastRegTime := s.registry.now } := by
          simp [exec,PeerRegistry.exec,ask]
        refine @Change.heard _ _ _ _ peer (.head _) ?_ rfl (by rw [after]; rfl) ?_ fun other apart => ?_
        · simp [accepts,exec,PeerRegistry.exec,ask]
        · rw [after]
          simp [Registry.amend]
        · rw [lastReg,after]
          exact congrArg Peer.lastRegTime (amendApart _ _ apart)
    | dbInsertPeer id uuid pk info guid fails =>
      simp only [exec,PeerRegistry.exec]
      split
      · exact .quiet rfl rfl rfl fun _ => rfl
      · split <;> exact .quiet rfl rfl rfl fun _ => rfl
    | dbUpdatePk guid id pk info fails =>
      simp only [exec,PeerRegistry.exec]
      split
      · exact .quiet rfl rfl rfl fun _ => rfl
      · split <;> exact .quiet rfl rfl rfl fun _ => rfl
    | _ => exact .quiet rfl rfl rfl fun _ => rfl
  | trimBlocker forget | trimChanges forget => exact .quiet rfl rfl rfl fun _ => rfl
  | _ =>
    have after := @execRegistry lib expired
    exact .quiet rfl (by rw [after]; rfl) (by rw [after]; rfl) fun _ => by rw [lastReg,after]; rfl

end Steps

/- The peer was put into memory by one of the operations so far. -/
def Born (w : World) (peer : LockPeer) : Prop := ∃ b ∈ w.log, allocated b.before b.did = some peer

/- What the history knows of the peers in memory. -/
structure Remembered (expired : Nat → Nat) (w : World) : Prop where
  named : Named w.shared
  known : ∀ id peer, entry w.shared id = some peer → Born w peer
  taken : ∀ e ∈ w.log, ∀ peer ∈ taken e.did, Born w peer
  short : ∀ peer, Born w peer → peer.number < w.shared.registry.heap.length
  apart : ∀ peer other, Born w peer → Born w other → peer.number = other.number → peer = other
  unseen : ∀ b ∈ w.log, ∀ peer, allocated b.before b.did = some peer → ¬ Accepted w peer.id →
    lastReg w.shared peer = expired b.before.registry.now
  time : ∀ e ∈ w.log, e.before.registry.now ≤ w.shared.registry.now

section Runs
variable {lib : Library} {expired : Nat → Nat} {key : String} {ok : World → Act Call Env → Prop} {s : Server} {w : World}

/- A peer is used only by a task that took its pointer. -/
theorem usedBorn (remembered : Remembered expired w) (reach : (machine lib expired key).Reach ok s w) {i : Nat} {c : Call}
    {o : Op} {next : Resp o → Prog Op Resp Unit} (waiting : w.tasks[i]? = some ⟨c,.op o next,true⟩) {peer}
      (uses : peer ∈ used o) :
    Born w peer := by
  obtain ⟨pointers,_⟩ := (everyAfterOnPath (Machine.taskPath reach waiting) (soundProgram c [])).1
  obtain ⟨d,done,took⟩ := pointers peer uses
  obtain ⟨e,member,_,rfl⟩ := didsOfMember.mp done
  exact remembered.taken e member peer took

section Performed
variable {i : Nat} {c : Call} {o : Op} {next : Resp o → Prog Op Resp Unit}

theorem bornPerformed {peer} (born : Born w peer) : Born ((machine lib expired key).performed w i c o next) peer := by
  obtain ⟨b,member,new⟩ := born
  exact ⟨b,Machine.stillThere member,new⟩

theorem bornCases {peer} (born : Born ((machine lib expired key).performed w i c o next) peer) :
    Born w peer ∨ allocated w.shared ⟨o,(exec lib expired o w.shared).1⟩ = some peer := by
  obtain ⟨b,member,new⟩ := born
  rcases Machine.memPerformed.mp member with old | rfl
  · exact .inl ⟨b,old,new⟩
  · exact .inr new

theorem acceptedPerformed {id} (accepted : Accepted w id) : Accepted ((machine lib expired key).performed w i c o next) id := by
  obtain ⟨e,member,hit⟩ := accepted
  exact ⟨e,Machine.stillThere member,hit⟩

theorem rememberedPerformed (remembered : Remembered expired w) (reach : (machine lib expired key).Reach ok s w)
    (waiting : w.tasks[i]? = some ⟨c,.op o next,true⟩) :
    Remembered expired ((machine lib expired key).performed w i c o next) := by
  have effect := @change lib expired o w.shared
  have named : Named (exec lib expired o w.shared).2 := namedAfter remembered.named
  have known : ∀ id peer, entry (exec lib expired o w.shared).2 id = some peer →
      Born ((machine lib expired key).performed w i c o next) peer := by
    intro id peer found
    unfold entry at found
    cases effect with
    | quiet none map length times | heard uses hit none map length times =>
      rw [map] at found
      exact bornPerformed (remembered.known id peer found)
    | @put ref new number map length time times =>
      rw [map] at found
      by_cases here : id = ref.id
      · subst here
        rw [AList.lookup_insert] at found
        cases Option.some.inj found
        exact ⟨_,Machine.happened,new⟩
      · rw [AList.lookup_insert_ne here] at found
        exact bornPerformed (remembered.known id peer found)
  have grows : w.shared.registry.heap.length ≤ (exec lib expired o w.shared).2.registry.heap.length := by
    cases effect with
    | quiet none map length times | heard uses hit none map length times => omega
    | put new number map length time times => omega
  -- a new peer lies behind all others
  have last : ∀ peer, allocated w.shared ⟨o,(exec lib expired o w.shared).1⟩ = some peer →
      peer.number = w.shared.registry.heap.length ∧ peer.number < (exec lib expired o w.shared).2.registry.heap.length ∧
        lastReg (exec lib expired o w.shared).2 peer = expired w.shared.registry.now := by
    intro peer new
    cases effect with
    | quiet none map length times | heard uses hit none map length times =>
      rw [none] at new
      cases new
    | put new' number map length time times =>
      cases Option.some.inj (new.symm.trans new')
      exact ⟨number,by omega,time⟩
  refine ⟨named,known,fun e member peer took => ?_,fun peer born => ?_,fun peer other born born' same => ?_,
    fun b member peer new silent => ?_,fun e member => ?_⟩
  · rcases Machine.memPerformed.mp member with old | rfl
    · exact bornPerformed (remembered.taken e old peer took)
    · exact known peer.id peer (takenEntry remembered.named took)
  · rcases bornCases born with old | new
    · exact Nat.lt_of_lt_of_le (remembered.short peer old) grows
    · exact (last peer new).2.1
  · rcases bornCases born with old | new <;> rcases bornCases born' with old' | new'
    · exact remembered.apart peer other old old' same
    · have less := remembered.short peer old
      rw [same,(last other new').1] at less
      exact absurd less (Nat.lt_irrefl _)
    · have less := remembered.short other old'
      rw [← same,(last peer new).1] at less
      exact absurd less (Nat.lt_irrefl _)
    · exact Option.some.inj (new.symm.trans new')
  · rcases Machine.memPerformed.mp member with old | rfl
    · have before := remembered.unseen b old peer new fun accepted => silent (acceptedPerformed accepted)
      have born : Born w peer := ⟨b,old,new⟩
      refine Eq.trans ?_ before
      cases effect with
      | quiet none map length times => exact times peer
      | put new number map length time times => exact times peer (remembered.short peer born)
      | @heard ref uses hit none map length times =>
        refine times peer fun same => silent ?_
        cases remembered.apart peer ref born (usedBorn remembered reach waiting uses) same
        exact ⟨_,Machine.happened,hit⟩
    · exact (last peer new).2.2
  · have now : (exec lib expired o w.shared).2.registry.now = w.shared.registry.now := nowAfter o w.shared
    change e.before.registry.now ≤ (exec lib expired o w.shared).2.registry.now
    rw [now]
    rcases Machine.memPerformed.mp member with old | rfl
    · exact remembered.time e old
    · exact Nat.le_refl _

end Performed

theorem remembered (empty : s.registry.map = ∅) (reach : (machine lib expired key).Reach ok s w) : Remembered expired w := by
  refine Machine.invariant (I := Remembered expired) ?_ ?_ ?_ ?_ reach
  · have absent : ∀ id, entry s id = none := fun id => by rw [entry,empty]; rfl
    have nothing : ∀ peer, ¬ Born (Machine.initial s : World) peer := fun peer born => by simp [Born,Machine.initial] at born
    refine ⟨fun id ref found => ?_,fun id peer found => ?_,by simp [Machine.initial],fun peer born => absurd born (nothing peer),
      fun peer _ born => absurd born (nothing peer),by simp [Machine.initial],by simp [Machine.initial]⟩
    · cases (absent id).symm.trans found
    · cases (absent id).symm.trans found
  · intro w c _ _ ih
    exact ⟨ih.named,ih.known,ih.taken,ih.short,ih.apart,ih.unseen,ih.time⟩
  · intro w i c o next before _ waiting _ ih
    exact rememberedPerformed ih before waiting
  · intro w e _ _ ih
    cases e with
    | tick ns => exact ⟨ih.named,ih.known,ih.taken,ih.short,ih.apart,ih.unseen,fun e member =>
        Nat.le_add_right_of_le (ih.time e member)⟩
    | seconds n => exact ⟨ih.named,ih.known,ih.taken,ih.short,ih.apart,ih.unseen,ih.time⟩

end Runs

/- The pointer came from a lookup of the id. -/
def Source (id : String) (done : List (Did Op Resp)) (peer : LockPeer) : Prop :=
  ⟨.registry (.mapRead id),some peer⟩ ∈ done ∨ ∃ row, ⟨.registry (.insertLoaded row id),peer⟩ ∈ done

/- What a task finds out about an id from which nothing was heard. -/
structure Unheard (id : String) (done : List (Did Op Resp)) : Prop where
  named : ∀ peer, Source id done peer → peer.id = id
  old : ∀ peer seen, ⟨.lastSeen peer,seen⟩ ∈ done → peer.id = id → 30000 ≤ seen.1

/- The request was not let in, or it was answered that the peer is not there. -/
def Refused (lib : Library) (conn : Conn) (ph : PunchHoleRequest) (draws : Draws) (done : List (Did Op Resp)) : Prop :=
  Ran (authorized lib ph.token draws) false done ∨
    ∃ failure, (failure = .offline ∨ failure = .idNotExist) ∧ Ran (sendToTcp lib (refusal failure) conn.addr) () done

section Programs
variable {α : Type} {lib : Library} {config : Config} {key : String} {conn : Conn} {draws : Draws} {id : String}

theorem unheardPart {done part : List (Did Op Resp)} (unheard : Unheard id done) (inside : ∀ d ∈ part, d ∈ done) :
    Unheard id part :=
  ⟨fun peer source => unheard.named peer (source.imp (inside _) fun ⟨row,there⟩ => ⟨row,inside _ there⟩),
    fun peer seen there => unheard.old peer seen (inside _ there)⟩

/- Once something was heard the rest of the program is free. -/
theorem heardAlong {P : List (Did Op Resp) → Op → Prop} {Q : List (Did Op Resp) → α → Prop} {done : List (Did Op Resp)}
    (heard : ¬ Unheard id done) (p : Prog Op Resp α) :
    p.Along (fun done o => Unheard id done → P done o) (fun done value => Unheard id done → Q done value) done := by
  induction p generalizing done with
  | ret value => exact fun unheard => absurd unheard heard
  | op o next ih =>
    refine ⟨fun unheard => absurd unheard heard,fun r => ih r fun unheard => heard ?_⟩
    exact unheardPart unheard fun _ => List.mem_append_left _

theorem sourceHeard {done : List (Did Op Resp)} {peer : LockPeer} {seen : Nat × SocketAddr} (source : Source id done peer)
    (recent : seen.1 < 30000) : ¬ Unheard id (done ++ [⟨.lastSeen peer,seen⟩]) := by
  intro unheard
  have name := unheard.named peer (source.imp (List.mem_append_left _) fun ⟨row,there⟩ => ⟨row,List.mem_append_left _ there⟩)
  have old := unheard.old peer seen (by simp) name
  omega

theorem getSource (id : String) (fails : Bool) (done : List (Did Op Resp)) :
    (registry (PeerRegistry.PeerMap.get id fails)).Ends
      (fun done found => ∀ peer, found = some peer → Source id done peer) done := by
  unfold registry PeerRegistry.PeerMap.get PeerRegistry.act
  simp only [performIs,bindOp,bindRet,embedOp,endsOp]
  intro found
  cases found with
  | some ref =>
    intro peer same
    cases Option.some.inj same
    exact .inl (by simp)
  | none =>
    intro loaded
    cases loaded with
    | error e => intro peer same; cases same
    | ok row =>
      cases row with
      | none => intro peer same; cases same
      | some row =>
        intro ref peer same
        cases Option.some.inj same
        exact .inr ⟨row,by simp⟩

theorem punchEnds {ph : PunchHoleRequest} (licence : key = "" ∨ ph.licenceKey = key) (done : List (Did Op Resp)) :
    (handlePunchHoleRequest lib config key conn ph draws).Ends (fun done made => Unheard ph.id done →
      ∃ failure, (failure = .offline ∨ failure = .idNotExist) ∧ made = (refusal failure,none)) done := by
  have licensed : ¬ (!key.isEmpty ∧ ph.licenceKey ≠ key) := by
    intro wrong
    rcases licence with none | same
    · simp [none] at wrong
    · exact wrong.2 same
  unfold handlePunchHoleRequest act
  rw [if_neg licensed]
  refine endsBind.mpr (endsMono (fun done found source => ?_) (getSource _ _ done))
  cases found with
  | none => exact fun _ => ⟨.idNotExist,.inr rfl,rfl⟩
  | some peer =>
    refine fun seen => endsIte.mpr ⟨fun _ _ => ⟨.offline,.inl rfl,rfl⟩,fun recent => ?_⟩
    exact alongEnds (P := fun done o => Unheard ph.id done → True)
      (heardAlong (sourceHeard (source peer rfl) (Nat.not_le.mp recent)) _)

def queues : Op → Bool
  | .enqueue _ => true
  | _ => false

/- Nothing is queued as long as nothing was heard. -/
abbrev Silent (id : String) (done : List (Did Op Resp)) (o : Op) : Prop := Unheard id done → queues o = false

theorem silentAfter {p : Prog Op Resp α} (all : p.Every fun o => queues o = false) (done : List (Did Op Resp)) :
    p.EveryAfter (Silent id) done := everyAfterOfEvery (fun done _ silent => fun _ : Unheard id done => silent) all done

theorem punchArmRefused {ph : PunchHoleRequest} (licence : key = "" ∨ ph.licenceKey = key) (done : List (Did Op Resp)) :
    (handlePunchArm lib config key conn ph draws).Along (Silent ph.id)
      (fun done _ => Unheard ph.id done → Refused lib conn ph draws done) done := by
  have asked : ∀ done, (handleTcpPunchHoleRequest lib config key conn ph draws >>= fun _ => (.ret true : Prog Op Resp Bool)).Along
      (Silent ph.id) (fun done _ => Unheard ph.id done → Refused lib conn ph draws done) done := by
    intro done
    have silent : (handlePunchHoleRequest lib config key conn ph draws).Every fun o => queues o = false :=
      everyPunchRequest (fun _ => rfl) (fun _ => rfl) (fun _ _ _ => rfl) (by rfl) (by rfl) ph
    unfold handleTcpPunchHoleRequest
    rw [bindAssoc,alongBind]
    refine alongMono (fun done made answer => ?_) (alongOf (silentAfter silent done) (punchEnds licence done))
    obtain ⟨msg,toAddr⟩ := made
    by_cases unheard : Unheard ph.id done
    · obtain ⟨failure,named,same⟩ := answer unheard
      cases same
      have answers : (sendToTcp lib (refusal failure) conn.addr).Every fun o => queues o = false :=
        everySendToTcp (fun _ => rfl) (fun _ => rfl) (fun _ => rfl) fun _ _ => rfl
      refine alongBind.mpr (alongMono (fun done _ ran => ?_) (alongOf (silentAfter answers done) (endsRan _ done)))
      exact fun _ => .inr ⟨failure,named,ran⟩
    · exact heardAlong unheard _
  unfold handlePunchArm act
  have checks : (authorized lib ph.token draws).Every fun o => queues o = false := everyAuthorized (fun _ => rfl) _
  refine alongBind.mpr (alongMono (fun done allowed ran => ?_) (alongOf (silentAfter checks done) (endsRan _ done)))
  cases allowed with
  | false => exact fun _ => .inl ran
  | true =>
    refine ⟨fun _ => rfl,fun sink => ?_⟩
    cases (sink : Option Sink) with
    | none => exact ⟨fun _ => rfl,fun _ => asked _⟩
    | some sink => exact ⟨fun _ => rfl,fun _ => ⟨fun _ => rfl,fun _ => asked _⟩⟩

theorem refusedAppend {ph : PunchHoleRequest} {done : List (Did Op Resp)} (refused : Refused lib conn ph draws done)
    (later : List (Did Op Resp)) : Refused lib conn ph draws (done ++ later) := by
  rcases refused with outside | ⟨failure,named,ran⟩
  · exact .inl (ranAppend outside later)
  · exact .inr ⟨failure,named,ranAppend ran later⟩

/- A frame with a punch request, once it was received. -/
theorem serveRefused {link : Link} {frame bytes : Bytes} {ph : PunchHoleRequest} (treated : treat lib link frame = .handle bytes)
    (parsed : lib.parse bytes = some (.punchHoleRequest ph)) (licence : key = "" ∨ ph.licenceKey = key)
    (done : List (Did Op Resp)) : (serve lib key conn frame draws link).Along (Silent ph.id)
      (fun done _ => Unheard ph.id done → Refused lib conn ph draws done) done := by
  have ended : ∀ keep : Bool, (if keep then act (.served conn) else closing lib conn).Every fun o => queues o = false := by
    intro keep
    exact everyIte.mpr ⟨fun _ => everyAct rfl,fun _ => everyClosing rfl rfl rfl rfl⟩
  have handled : ∀ done, (handleTcp lib link.config key conn bytes draws >>= fun keep =>
      if keep then act (.served conn) else closing lib conn).Along (Silent ph.id)
        (fun done _ => Unheard ph.id done → Refused lib conn ph draws done) done := by
    intro done
    unfold handleTcp
    rw [parsed]
    refine alongBind.mpr (alongMono (fun done keep answer => ?_) (punchArmRefused licence done))
    refine alongMono (fun done' _ longer unheard => ?_) (alongOf (silentAfter (ended keep) done) (endsLonger _ done))
    obtain ⟨later,rfl⟩ := longer
    exact refusedAppend (answer (unheardPart unheard fun _ => List.mem_append_left _)) later
  unfold serve
  rw [treated]
  dsimp only
  split
  · exact ⟨fun _ => rfl,fun _ => handled _⟩
  · exact handled _

theorem onlineListEnds (peers : List String) (done : List (Did Op Resp)) : (onlineList peers).Ends (fun done online =>
    Unheard id done → online.length = peers.length ∧ ∀ j : Nat, peers[j]? = some id → online[j]? = some false) done := by
  induction peers generalizing done with
  | nil => exact fun _ => ⟨rfl,fun j wrong => by cases wrong⟩
  | cons head rest ih =>
    have rested : ∀ (mine : Bool) (done : List (Did Op Resp)), (Unheard id done → head = id → mine = false) →
        (onlineList rest >>= fun others => (.ret (mine :: others) : Prog Op Resp (List Bool))).Ends (fun done online =>
          Unheard id done → online.length = (head :: rest).length ∧
            ∀ j : Nat, (head :: rest)[j]? = some id → online[j]? = some false) done := by
      intro mine done first
      refine endsBind.mpr (endsMono (fun done' others known unheard => ?_) (endsBoth (ih done) (endsLonger _ done)))
      obtain ⟨answers,later,rfl⟩ := known
      obtain ⟨length,bits⟩ := answers unheard
      refine ⟨congrArg (· + 1) length,fun j there => ?_⟩
      cases j with
      | zero =>
        rw [List.getElem?_cons_zero] at there ⊢
        rw [first (unheardPart unheard fun _ => List.mem_append_left _) (Option.some.inj there)]
      | succ j => exact bits j there
    unfold onlineList
    refine fun found => ?_
    cases (found : Option LockPeer) with
    | none => exact rested false _ fun _ _ => rfl
    | some peer =>
      refine fun seen => rested (decide (seen.1 < 30000)) _ fun unheard same => ?_
      subst same
      exact decide_eq_false (Nat.not_lt.mpr (unheard.old peer seen (by simp) (unheard.named peer (.inl (by simp)))))

theorem onlineCountEnds (timeout : Nat) (peers : List LockPeer) (done : List (Did Op Resp)) :
    (onlineCount timeout peers).Ends (fun done online => ∃ counted : List LockPeer, counted.Sublist peers ∧
      counted.length = online ∧ ∀ peer ∈ counted, ∃ seen, ⟨.lastSeen peer,seen⟩ ∈ done ∧ seen.1 < timeout) done := by
  induction peers generalizing done with
  | nil => exact ⟨[],.slnil,rfl,fun _ wrong => by cases wrong⟩
  | cons peer rest ih =>
    unfold onlineCount act
    simp only [performIs,bindOp,bindRet]
    refine fun seen => endsBind.mpr (endsMono (fun done' others known => ?_)
      (endsBoth (ih _) (endsKept (d := ⟨.lastSeen peer,seen⟩) (by simp))))
    obtain ⟨⟨counted,part,length,all⟩,read⟩ := known
    by_cases recent : seen.1 < timeout
    · refine ⟨peer :: counted,part.cons_cons peer,?_,fun other member => ?_⟩
      · rw [if_pos recent,List.length_cons,length]
      · rcases List.mem_cons.mp member with rfl | inside
        · exact ⟨seen,read,recent⟩
        · exact all other inside
    · exact ⟨counted,part.cons peer,by rw [if_neg recent,length],all⟩

/- The bit of a peer in the answer is not set. -/
def Unlit (states : List Nat) (j : Nat) : Prop := ∃ byte, states[j / 8]? = some byte ∧ byte.testBit (7 - j % 8) = false

theorem statesUnlit {online : List Bool} {j : Nat} (off : online[j]? = some false) : Unlit (onlineStates online) j := by
  obtain ⟨less,value⟩ := List.getElem?_eq_some_iff.mp off
  refine ⟨_,by unfold onlineStates; rw [List.getElem?_map,List.getElem?_range (by omega)]; rfl,?_⟩
  change (OnlineAnswer.byteOf fun bit => online.getD (8 * (j / 8) + bit) false).testBit (7 - j % 8) = false
  rw [byteBit (fun bit => online.getD (8 * (j / 8) + bit) false) (Nat.mod_lt j (by decide)),Nat.div_add_mod,
    List.getD_eq_getElem?_getD,off]
  rfl

/- The answer to an online query leaves the bits of the id out. -/
theorem natUnlit {addr : SocketAddr} {bytes : Bytes} {peers : List String}
    (parsed : lib.parse bytes = some (.onlineRequest peers))
    (done : List (Did Op Resp)) : (program lib key (.nat addr bytes)).EveryAfter (fun done o => ∀ route states,
      o = .send route (.onlineResponse states) → Unheard id done → ∀ j : Nat, peers[j]? = some id → Unlit states j) done := by
  have turns : (turning pure).Every fun o => ∀ route m, o ≠ .send route m :=
    everyTurning (fun _ _ wrong => by cases wrong) (fun _ _ wrong => by cases wrong) fun _ => trivial
  have reads : (onlineList peers).Every fun o => ∀ route m, o ≠ .send route m :=
    everyOnlineList (fun _ _ _ wrong => by cases wrong) (fun _ _ _ wrong => by cases wrong) peers
  have free : ∀ {α : Type} {p : Prog Op Resp α}, (p.Every fun o => ∀ route m, o ≠ .send route m) → ∀ done,
      p.EveryAfter (fun done o => ∀ route states, o = .send route (.onlineResponse states) → Unheard id done →
        ∀ j : Nat, peers[j]? = some id → Unlit states j) done :=
    fun all => everyAfterOfEvery (fun _ _ never route states same => absurd same (never route _)) all
  unfold program
  refine everyAfterBind (free turns done) fun config later => ?_
  rw [parsed]
  refine everyAfterIte.mpr ⟨fun _ => ?_,fun _ => trivial⟩
  refine everyAfterBindEnds (free reads _) (endsMono (fun done online bits => ?_) (@onlineListEnds id peers _))
  refine ⟨fun route states same unheard j there => ?_,fun _ => trivial⟩
  cases same
  exact statesUnlit ((bits unheard).2 j there)

/- The number that is logged is that of the listed peers that were seen lately. -/
def Counts (done : List (Did Op Resp)) (o : Op) : Prop :=
  ∀ online tcp udp, o = .report online tcp udp → ∃ peers, ⟨.listed,peers⟩ ∈ done ∧ ∃ counted : List LockPeer,
    counted.Sublist peers ∧ counted.length = online ∧ ∀ peer ∈ counted, ∃ seen, ⟨.lastSeen peer,seen⟩ ∈ done ∧ seen.1 < 30000

def reports : Op → Bool
  | .report _ _ _ => true
  | _ => false

theorem countsFree {o : Op} (free : reports o = false) (done : List (Did Op Resp)) : Counts done o := by
  intro online tcp udp same
  rw [same] at free
  cases free

theorem transportCounts (done : List (Did Op Resp)) : logPeerTransport.EveryAfter Counts done := by
  unfold logPeerTransport act
  simp only [performIs,bindOp,bindRet]
  refine ⟨countsFree rfl _,fun peers => ?_⟩
  have silent : (onlineCount 30000 peers).Every fun o => reports o = false := everyOnlineCount (fun _ => rfl) _ _
  refine everyAfterBindEnds (everyAfterOfEvery (fun _ _ free => countsFree free _) silent _) ?_
  refine endsMono (fun done' online known => ⟨countsFree rfl _,fun tcp => ⟨fun online' tcp' udp same => ?_,fun _ => trivial⟩⟩)
    (endsBoth (onlineCountEnds 30000 peers _) (endsKept (d := ⟨.listed,peers⟩) (by simp)))
  cases same
  obtain ⟨⟨counted,part,length,all⟩,there⟩ := known
  refine ⟨peers,List.mem_append_left _ there,counted,part,length,fun peer member => ?_⟩
  obtain ⟨seen,read,recent⟩ := all peer member
  exact ⟨seen,List.mem_append_left _ read,recent⟩

theorem programCounts (c : Call) : (program lib key c).EveryAfter Counts [] := by
  have others : (∀ online tcp udp, ¬ Performs c (.report online tcp udp)) → (program lib key c).EveryAfter Counts [] := by
    intro never
    refine everyAfterOfEvery (fun _ o allowed => ?_) (programPerforms lib key c) []
    intro online tcp udp same
    rw [same] at allowed
    exact absurd allowed (never online tcp udp)
  cases c with
  | peerTransport =>
    unfold program turning act
    simp only [performIs,bindOp,bindRet]
    refine ⟨countsFree rfl _,fun config => everyAfterBind (transportCounts _) fun _ _ => ?_⟩
    exact ⟨countsFree rfl _,fun _ => trivial⟩
  | tcp conn frame draws => exact others fun _ _ _ wrong => by rcases wrong with wrong | wrong <;> cases wrong
  | close conn => exact others fun _ _ _ wrong => by cases wrong
  | console addr cmd => exact others fun _ _ _ wrong => by cases cmd <;> cases wrong
  | _ => exact others fun _ _ _ wrong => wrong

end Programs

/- The message that a connection gets to handle first among what was done. -/
def Carries (lib : Library) (conn : Conn) (frame : Bytes) (m : Message) (done : List (Did Op Resp)) : Prop :=
  ∃ link bytes later, done = ⟨.receive conn (some frame),some link⟩ :: later ∧ treat lib link frame = .handle bytes ∧
    lib.parse bytes = some m

/- The id is nowhere taken for that of an online peer. -/
structure NeverOnline (lib : Library) (key : String) (w : World) (id : String) : Prop where
  silent : ∀ (i : Nat) conn frame draws ph, w.calls[i]? = some (.tcp conn frame draws) →
    Carries lib conn frame (.punchHoleRequest ph) (w.didsOf i) → ph.id = id → (key = "" ∨ ph.licenceKey = key) →
    ∀ d ∈ w.didsOf i, ∀ data, d.1 ≠ .enqueue data
  refused : ∀ (i : Nat) conn frame draws ph, w.Answered i (.tcp conn frame draws) () →
    Carries lib conn frame (.punchHoleRequest ph) (w.didsOf i) → ph.id = id → (key = "" ∨ ph.licenceKey = key) →
    Refused lib conn ph draws (w.didsOf i)
  unlit : ∀ (i : Nat) addr bytes peers, w.calls[i]? = some (.nat addr bytes) → lib.parse bytes = some (.onlineRequest peers) →
    ∀ route states, ⟨.send route (.onlineResponse states),()⟩ ∈ w.didsOf i → ∀ j : Nat, peers[j]? = some id → Unlit states j
  uncounted : ∀ (i : Nat) online tcp udp, ⟨.report online tcp udp,()⟩ ∈ w.didsOf i → ∃ peers, ⟨.listed,peers⟩ ∈ w.didsOf i ∧
    ∃ counted : List LockPeer, counted.Sublist peers ∧ counted.length = online ∧ ∀ peer ∈ counted, peer.id ≠ id

section Runs
variable {lib : Library} {key : String} {accounts : AccountStore.Store} {now : Nat} {table : PeerRegistry.Peers} {config : Config}
variable {w : World}

/- What a task read about peers that were not heard from. -/
theorem lastSeenOld (reach : (machine lib getExpiredTime key).Reach Aged (.init accounts (.init now table) config) w) {i : Nat}
    {peer : LockPeer} {seen : Nat × SocketAddr} (read : ⟨.lastSeen peer,seen⟩ ∈ w.didsOf i) (silent : ¬ Accepted w peer.id) :
    30000 ≤ seen.1 := by
  obtain ⟨e,member,task,did⟩ := didsOfMember.mp read
  obtain ⟨v,reached,meets,shared,history,_,_,next,waiting⟩ := Machine.moment reach member
  have op : e.did.1 = .lastSeen peer := congrArg Sigma.fst did
  have silent' : ¬ Accepted v peer.id := fun ⟨a,there,hit⟩ => silent ⟨a,((history a).mp there).1,hit⟩
  have rest := remembered rfl reached
  have uses : peer ∈ used e.did.1 := by
    rw [op]
    exact .head _
  obtain ⟨b,inside,new⟩ := usedBorn rest reached waiting uses
  have value : seen.1 = (v.shared.registry.now - getExpiredTime b.before.registry.now) / 1000000 := by
    have same : seen = ((v.shared.registry.now - lastReg v.shared peer) / 1000000,(v.shared.registry.peer peer).socketAddr) := by
      rw [shared]
      exact Machine.responseIs reach member did
    rw [same,rest.unseen b inside peer new silent']
  by_contra recent
  rw [value] at recent
  have early := (expiredRecent (rest.time b inside)).mp (Nat.not_le.mp recent)
  refine silent' (meets peer ?_ ⟨b,inside,new,early⟩)
  rw [nextIs waiting,op]
  rfl

theorem sourceNamed (reach : (machine lib getExpiredTime key).Reach Aged (.init accounts (.init now table) config) w) {i : Nat}
    {id : String} {peer : LockPeer} (source : Source id (w.didsOf i) peer) : peer.id = id := by
  rcases source with read | ⟨row,loaded⟩
  · obtain ⟨e,member,_,did⟩ := didsOfMember.mp read
    obtain ⟨v,reached,_,shared,_⟩ := Machine.moment reach member
    have found : some peer = entry e.before id := Machine.responseIs reach member did
    rw [← shared] at found
    exact (remembered rfl reached).named id peer found.symm
  · obtain ⟨e,member,_,did⟩ := didsOfMember.mp loaded
    have made : peer = ⟨id,e.before.registry.heap.length⟩ := Machine.responseIs reach member did
    rw [made]

theorem unheardTask (reach : (machine lib getExpiredTime key).Reach Aged (.init accounts (.init now table) config) w)
    {id : String}
    (silent : ¬ Accepted w id) (i : Nat) : Unheard id (w.didsOf i) where
  named _ source := sourceNamed reach source
  old _ _ read same := lastSeenOld reach read (same ▸ silent)

/- A task with a frame that carries a message has begun to serve it. -/
theorem servedPath {ok : World → Act Call Env → Prop} {s : Server} {expired : Nat → Nat}
    (reach : (machine lib expired key).Reach ok s w) {i : Nat} {conn frame draws} {m : Message}
    {t : Task Op Resp Call Unit} (there : w.tasks[i]? = some t) (call : t.call = .tcp conn frame draws)
    (carries : Carries lib conn frame m (w.didsOf i)) : ∃ link bytes later,
      w.didsOf i = ⟨.receive conn (some frame),some link⟩ :: later ∧ treat lib link frame = .handle bytes ∧
      lib.parse bytes = some m ∧ Path (serve lib key conn frame draws link) later t.prog := by
  obtain ⟨link,bytes,later,done,treated,parsed⟩ := carries
  have path := Machine.taskPath reach there
  rw [call,done] at path
  rcases pathOp.mp path with ⟨wrong,_⟩ | ⟨r,rest,same,onward⟩
  · cases wrong
  · cases same
    exact ⟨link,bytes,later,done,treated,parsed,onward⟩

/- In every run in which nobody looks at a peer that was loaded less than 30 seconds ago, in the first
hour of the clock, ids from which nothing was accepted are nowhere taken for online. -/
theorem neverOnlineIfAged (reach : (machine lib getExpiredTime key).Reach Aged (.init accounts (.init now table) config) w) :
    ∀ id, ¬ Accepted w id → NeverOnline lib key w id := by
  intro id silent
  have unheard := unheardTask reach silent
  refine ⟨fun i conn frame draws ph called carries named licence => ?_,
    fun i conn frame draws ph answered carries named licence => ?_,
    fun i addr bytes peers called parsed route states sent j there => ?_,fun i online tcp udp reported => ?_⟩
  · subst named
    rw [Pool.calls,List.getElem?_map] at called
    obtain ⟨t,there,call⟩ := Option.map_eq_some_iff.mp called
    obtain ⟨link,bytes,later,done,treated,parsed,path⟩ := servedPath reach there call carries
    have before := unheard i
    obtain ⟨quiet,_⟩ := alongOnPath path (@serveRefused _ _ _ draws _ _ _ _ treated parsed licence [⟨.receive conn (some frame),some link⟩])
    rw [done] at before ⊢
    intro d inside data queued
    rcases List.mem_cons.mp inside with rfl | inside
    · cases queued
    · obtain ⟨first,last,split⟩ := List.append_of_mem inside
      have part : Unheard ph.id (⟨.receive conn (some frame),some link⟩ :: first) := by
        refine unheardPart before fun d member => ?_
        rw [split,← List.cons_append]
        exact List.mem_append_left _ member
      have free := quiet first d last split part
      rw [queued] at free
      cases free
  · subst named
    obtain ⟨t,there,call,value⟩ := answered
    obtain ⟨link,bytes,later,done,treated,parsed,path⟩ := servedPath reach there call carries
    have before := unheard i
    rw [value] at path
    obtain ⟨_,last⟩ := alongOnPath path (@serveRefused _ _ _ draws _ _ _ _ treated parsed licence [⟨.receive conn (some frame),some link⟩])
    rw [done] at before ⊢
    exact last before
  · obtain ⟨e,member,task,did⟩ := didsOfMember.mp sent
    obtain ⟨v,reached,_,_,history,_,_,next,waiting⟩ := Machine.moment reach member
    have call : e.call = .nat addr bytes := by
      obtain ⟨t,there,same⟩ := Machine.eventTask reach e member
      rw [task] at there
      exact same.symm.trans (Option.some.inj ((callAt there).symm.trans called))
    rw [call] at waiting
    have guard := (everyAfterOnPath (Machine.taskPath reached waiting) (@natUnlit _ key id _ _ _ parsed [])).1
    refine guard route states (congrArg Sigma.fst did) (unheardPart (unheard i) fun d done => ?_) j there
    obtain ⟨a,inside,same,rfl⟩ := didsOfMember.mp done
    exact didsOfMember.mpr ⟨a,((history a).mp inside).1,same.trans task,rfl⟩
  · obtain ⟨e,member,task,did⟩ := didsOfMember.mp reported
    obtain ⟨done,guard,past⟩ := Machine.guarded (fun _ c => programCounts c) reach member
    have kept : ∀ d ∈ done, d ∈ w.didsOf i := by
      intro d inside
      obtain ⟨a,there,same,_,rfl⟩ := past d inside
      exact didsOfMember.mpr ⟨a,there,same.trans task,rfl⟩
    obtain ⟨peers,listed,counted,part,length,all⟩ := guard online tcp udp (congrArg Sigma.fst did)
    refine ⟨peers,kept _ listed,counted,part,length,fun peer inside same => ?_⟩
    obtain ⟨seen,read,recent⟩ := all peer inside
    have old := (unheard i).old peer seen (kept _ read) same
    omega

end Runs

section Concrete

instance (w : World) (id : String) : Decidable (Accepted w id) := by unfold Accepted; infer_instance
instance (w : World) (peer : LockPeer) : Decidable (Recent w peer) := by unfold Recent; infer_instance
instance (w : World) : (a : Act Call Env) → Decidable (Aged w a)
  | .advance i => inferInstanceAs (Decidable (∀ peer ∈ (w.next i).bind asks, Recent w peer → Accepted w peer.id))
  | .start _ | .env _ => .isTrue trivial

/- A machine that is up for the given time, and hbbs with one peer in the table. -/
def upFor (uptime : Nat) : Server := .init signedIn (.init uptime oneRow) oneServer

def requestMachine := machine (plainLibrary requestOrRegister) getExpiredTime ""

def controllerAsks (n : Nat) : List (Act Call Env) := requesting ++ advances 1 n

def asked : PunchHoleRequest := ⟨"100000003",.asymmetric,"",controllerToken.text⟩

/- The task began with the frame, on a connection without encryption. -/
def plainFrame : List (Did Op Resp) → Bool
  | ⟨.receive conn frame,some link⟩ :: _ =>
    decide (conn = controllerConn) && decide (frame = some [1]) && decide (link.dec = none) && decide (link.offer = none)
  | _ => false

theorem plainCarries {done : List (Did Op Resp)} (plain : plainFrame done = true) :
    Carries (plainLibrary requestOrRegister) controllerConn [1] (.punchHoleRequest asked) done := by
  unfold plainFrame at plain
  split at plain
  · rename_i conn frame link later
    simp only [Bool.and_eq_true,decide_eq_true_eq] at plain
    obtain ⟨⟨⟨rfl,rfl⟩,open'⟩,first⟩ := plain
    refine ⟨link,[1],later,rfl,?_,rfl⟩
    unfold treat
    rw [open',first]
  · cases plain

/- Two minutes after the machine was booted, the request is sent on to no address. -/
theorem freshBootForwards : ∃ w, requestMachine.Reach (fun _ _ => True) (upFor 120000000000) w ∧
    ¬ Accepted w "100000003" ∧ (∃ e ∈ w.log, ∃ m, e.did.1 = .enqueue (.msg m PeerRegistry.unset)) ∧
    ¬ NeverOnline (plainLibrary requestOrRegister) "" w "100000003" := by
  obtain ⟨w,reach,shown⟩ := Machine.reachWith (fun _ _ => True) (fun _ _ => true) (fun _ _ _ => trivial) (controllerAsks 6)
    (m := requestMachine) (s := upFor 120000000000)
    (P := fun w => decide (¬ Accepted w "100000003") && plainFrame (w.didsOf 1) &&
      decide (w.calls[1]? = some (Call.tcp controllerConn [1] (calm AccountCalls.mintedB))) &&
      w.log.any fun e => decide (e.task = 1) && decide (e.did.1 = .enqueue (.msg
        (.punchHole ⟨plainEncode controllerConn.addr,"",.asymmetric⟩) PeerRegistry.unset))) (by decide +kernel)
  simp only [Bool.and_eq_true,List.any_eq_true,decide_eq_true_eq] at shown
  obtain ⟨⟨⟨silent,plain⟩,called⟩,e,inside,task,queued⟩ := shown
  refine ⟨w,reach,silent,⟨e,inside,_,queued⟩,fun never => ?_⟩
  have member : e.did ∈ w.didsOf 1 := didsOfMember.mpr ⟨e,inside,task,rfl⟩
  exact never.silent 1 _ _ _ asked called (plainCarries plain) rfl (.inl rfl) e.did member _ queued

/- Two hours after, it is answered that the peer is offline. -/
theorem laterRefused : ∃ w, requestMachine.Reach Aged (upFor bootInstant) w ∧ ¬ Accepted w "100000003" ∧
    w.answer 1 = some (.tcp controllerConn [1] (calm AccountCalls.mintedB),some ()) ∧
    (∃ e ∈ w.log, e.did.1 = .send (.sink (.tcpStream controllerConn none)) (refusal .offline)) ∧
    NeverOnline (plainLibrary requestOrRegister) "" w "100000003" := by
  obtain ⟨w,reach,shown⟩ := Machine.reachWith Aged (fun w a => decide (Aged w a)) (fun _ _ => of_decide_eq_true)
    (controllerAsks 5)
    (m := requestMachine) (s := upFor bootInstant)
    (P := fun w => decide (¬ Accepted w "100000003") &&
      decide (w.answer 1 = some (.tcp controllerConn [1] (calm AccountCalls.mintedB),some ())) &&
      w.log.any fun e => decide (e.did.1 = .send (.sink (.tcpStream controllerConn none)) (refusal .offline))) (by decide +kernel)
  simp only [Bool.and_eq_true,List.any_eq_true,decide_eq_true_eq] at shown
  obtain ⟨⟨silent,answered⟩,e,inside,sent⟩ := shown
  exact ⟨w,reach,silent,answered,⟨e,inside,sent⟩,neverOnlineIfAged reach _ silent⟩

end Concrete
end OpenuuServer.PeerUnseen
