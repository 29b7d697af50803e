import OpenuuServer.ConnectionKeys
import OpenuuServer.Obligations

/-! What stays behind in `tcp_punch` and `tcp_peers`. A connection that gave its sink away removes what
is stored under its address before it is gone; so an entry under an address means that a connection
from there is still open, whoever else stored, took or removed something under the same address. -/
namespace OpenuuServer.SinkLeaks
open AtomicProgram RendezvousMessages RendezvousServer RendezvousPrograms RendezvousService ConnectionKeys Obligations
open PeerRegistry (Bytes SocketAddr)

/- The two maps. -/
inductive Place where
  | punch
  | peers

def Place.view : Place → Server → Sinks
  | .punch,s => s.tcpPunch
  | .peers,s => s.tcpPeers

def Place.removal : Place → SocketAddr → Op
  | .punch,key => .punchRemove key
  | .peers,key => .peersRemove key

def Place.storing : Place → SocketAddr → Sink → Op
  | .punch,key,sink => .punchInsert key sink
  | .peers,key,sink => .peersInsert key sink

/- Who serves a connection, or stores a sink, is going to remove it before the connection is gone. That
its sink was given away is what the end of `handle_listener_inner` finds. -/
def debt (lib : Library) (place : Place) (conn : Conn) : Debt Op Resp where
  incurs o := (∃ frame, o = .receive conn frame) ∨ ∃ key sink, o = place.storing key sink
  frees o := o = place.removal (keyOf lib conn)
  breaks o := o = .disconnect conn
  fits d := ∀ sink, d ≠ ⟨.readSink conn,some sink⟩
  mayEnd := True

section Programs
variable {lib : Library} {place : Place} {conn conn' : Conn} {config : Config} {key : String} {draws : Draws}

/- No handler ends its connection. -/
def stays : Op → Bool
  | .disconnect _ => false
  | _ => true

theorem staysSafe {α : Type} {p : Prog Op Resp α} (all : p.Every fun o => stays o = true) :
    p.Every fun o => ¬ (debt lib place conn).breaks o := by
  refine everyMono (fun o stay wrong => ?_) all
  obtain rfl : o = .disconnect conn := wrong
  cases stay

theorem staysInner {o : Op} (free : RendezvousPrograms.inner o = true) : stays o = true := by
  cases o with
  | disconnect conn => cases free
  | _ => rfl

theorem staysParts : Parts lib conn' fun _ p => p.Every fun o => stays o = true where
  ret _ := trivial
  bind := everyBind
  op free rest := ⟨staysInner free,rest⟩
  peer _ _ := everySendToTcpPeer (fun _ => rfl) (fun _ => rfl) fun _ _ => rfl
  reply _ := everyReplyOnConnection rfl (fun _ => rfl) (fun _ => rfl) fun _ _ => rfl
  answer _ _ := everySendToTcp (fun _ => rfl) (fun _ => rfl) (fun _ => rfl) fun _ _ => rfl
  adopt := everyAdoptSink rfl fun _ => rfl
  park absent present rest := everyPark rfl (fun _ => rfl) absent present rest

theorem closingOwed : (debt lib place conn).Owed (closing lib conn') := by
  have leave : (debt lib place conn).Owed (act (.peersRemove (lib.tryIntoV4 conn'.addr)) >>= fun _ => act (.disconnect conn')) ∨
      conn' = conn ∧ place = .punch := by
    by_cases same : conn' = conn
    · subst same
      cases place with
      | punch => exact .inr ⟨rfl,rfl⟩
      | peers => exact .inl (.inl rfl)
    · exact .inl (.inr ⟨by simp [debt],fun _ _ => .inr ⟨fun wrong => same (Op.disconnect.inj wrong),fun _ _ => trivial⟩⟩)
  unfold closing act
  simp only [performIs,bindOp,bindRet]
  refine .inr ⟨by simp [debt],fun sink fits => ?_⟩
  cases (sink : Option Sink) with
  | none =>
    rcases leave with owed | ⟨rfl,rfl⟩
    · exact .inr ⟨by simp [debt],fun _ _ => owed⟩
    · exact .inl rfl
  | some sink =>
    rcases leave with owed | ⟨rfl,rfl⟩
    · exact owed
    · exact absurd rfl (fits sink)

theorem closingHonoured : (debt lib place conn).Honoured (closing lib conn') := by
  have free : ∀ o, outer o = true → (∀ key sink, o ≠ .punchInsert key sink) → (∀ key sink, o ≠ .peersInsert key sink) →
      ¬ (debt lib place conn).incurs o := by
    rintro o out punch peers (⟨frame,rfl⟩ | ⟨key,sink,rfl⟩)
    · cases out
    · cases place with
      | punch => exact punch _ _ rfl
      | peers => exact peers _ _ rfl
  refine honouredFree (everyClosing ?_ ?_ ?_ ?_) <;> exact free _ rfl (by simp) (by simp)

theorem serveHonoured (frame : Bytes) (link : Link) : (debt lib place conn).Owed (serve lib key conn' frame draws link) ∧
    (debt lib place conn).Honoured (serve lib key conn' frame draws link) := by
  have served : (act (.served conn')).Every fun o => ¬ (debt lib place conn).breaks o := staysSafe (everyAct rfl)
  have left : ∀ keep : Bool, (debt lib place conn).Owed (if keep then act (.served conn') else closing lib conn') :=
    fun keep => owedIte (owedSafe trivial served) closingOwed
  have left' : ∀ keep : Bool, (debt lib place conn).Honoured (if keep then act (.served conn') else closing lib conn') :=
    fun keep => honouredIte (honouredSafe trivial served) closingHonoured
  have handled : ∀ bytes, (handleTcp lib link.config key conn' bytes draws).Every fun o => ¬ (debt lib place conn).breaks o :=
    fun bytes => staysSafe (staysParts.handleTcp bytes)
  unfold serve
  split
  · have safe : (act (.secure conn' ‹_›) >>= fun _ => act (.served conn')).Every fun o => ¬ (debt lib place conn).breaks o :=
      staysSafe ⟨rfl,fun _ => everyAct rfl⟩
    exact ⟨owedSafe trivial safe,honouredSafe trivial safe⟩
  · exact ⟨closingOwed,closingHonoured⟩
  · rename_i bytes _
    have owed := owedBind (handled bytes) left
    have honoured := honouredBind (handled bytes) left left'
    split
    · exact ⟨.inr ⟨by simp [debt],fun _ _ => owed⟩,fun _ _ => owed,fun _ => honoured⟩
    · exact ⟨owed,honoured⟩

theorem programHonoured (place : Place) (conn : Conn) (c : Call) : (debt lib place conn).Honoured (program lib key c) := by
  have others : (∀ conn', ¬ Performs c (.disconnect conn')) → (debt lib place conn).Honoured (program lib key c) := by
    intro never
    refine honouredSafe trivial (everyMono (fun o allowed wrong => ?_) (programPerforms lib key c))
    obtain rfl : o = .disconnect conn := wrong
    exact never _ allowed
  cases c with
  | tcp conn' frame draws =>
    refine ⟨fun _ link => ?_,fun link => ?_⟩
    · cases (link : Option Link) with
      | none => exact trivial
      | some link => exact (serveHonoured frame link).1
    · cases (link : Option Link) with
      | none => exact trivial
      | some link => exact (serveHonoured frame link).2
  | close conn' => exact ⟨fun _ _ => closingOwed,fun _ => closingHonoured⟩
  | console addr cmd => exact others fun _ wrong => by cases cmd <;> cases wrong
  | _ => exact others fun _ wrong => wrong

end Programs

section Runs
variable {lib : Library} {expired : Nat → Nat} {key : String} {ok : World → Act Call Env → Prop} {s : Server} {w : World}

/- An entry was there before and is not being removed, or is stored just now. -/
theorem viewAfter (place : Place) (o : Op) (s : Server) (at' : SocketAddr)
    (there : ((place.view (exec lib expired o s).2).lookup at').isSome = true) :
    (((place.view s).lookup at').isSome = true ∧ o ≠ place.removal at') ∨ ∃ sink, o = place.storing at' sink := by
  cases place with
  | punch =>
    simp only [Place.view,execPunch] at there
    cases o with
    | punchInsert key sink =>
      by_cases same : at' = key
      · exact .inr ⟨sink,by rw [same]; rfl⟩
      · exact .inl ⟨by simpa [Place.view,punchAfter,same] using there,by simp [Place.removal]⟩
    | punchRemove key =>
      by_cases same : at' = key
      · simp [punchAfter,same] at there
      · exact .inl ⟨by simpa [Place.view,punchAfter,same] using there,fun wrong => same (Op.punchRemove.inj wrong).symm⟩
    | _ => exact .inl ⟨there,by simp [Place.removal]⟩
  | peers =>
    simp only [Place.view,execPeer] at there
    cases o with
    | peersInsert key sink =>
      by_cases same : at' = key
      · exact .inr ⟨sink,by rw [same]; rfl⟩
      · exact .inl ⟨by simpa [Place.view,peerAfter,same] using there,by simp [Place.removal]⟩
    | peersRemove key =>
      by_cases same : at' = key
      · simp [peerAfter,same] at there
      · exact .inl ⟨by simpa [Place.view,peerAfter,same] using there,fun wrong => same (Op.peersRemove.inj wrong).symm⟩
    | peersTake key =>
      refine .inl ⟨?_,by simp [Place.removal]⟩
      simp only [peerAfter] at there
      split at there
      · simpa [Place.view] using there
      · exact there
    | peersPutBack key sink =>
      refine .inl ⟨?_,by simp [Place.removal]⟩
      simp only [peerAfter] at there
      split at there
      · rename_i both
        simp [Place.view,both.2]
      · exact there
    | _ => exact .inl ⟨there,by simp [Place.removal]⟩

/- A connection whose sink was taken has none any more, and is not connected again. -/
theorem takenGone (closed : s.links = ∅) (reach : (machine lib expired key).Reach ok s w) : ∀ e ∈ w.log, ∀ conn,
    e.did.1 = .takeSink conn → conn ∈ w.shared.accepted ∧ ∀ link, w.shared.links.lookup conn = some link → link.sink = none := by
  refine Machine.invariant (I := fun w => ∀ e ∈ w.log, ∀ conn, e.did.1 = .takeSink conn →
    conn ∈ w.shared.accepted ∧ ∀ link, w.shared.links.lookup conn = some link → link.sink = none) ?_ ?_ ?_ ?_ reach
  · simp [Machine.initial]
  · exact fun w c _ _ ih => ih
  · intro w i c o next before _ found ready ih e member conn took
    rcases Machine.memPerformed.mp member with old | rfl
    · obtain ⟨known,none⟩ := ih e old conn took
      refine ⟨(execAccepted o w.shared conn).mpr (.inl known),fun link here => ?_⟩
      rw [show ((machine lib expired key).performed w i c o next).shared = (exec lib expired o w.shared).2 from rfl,execLink] at here
      by_contra some
      obtain ⟨sink,inside⟩ := Option.ne_none_iff_exists'.mp some
      rcases sinkAfter here inside with ⟨config,rfl,_⟩ | ⟨link',sink',there,had,_⟩
      · exact of_decide_eq_true ready known
      · cases (none link' there).symm.trans had
    · obtain rfl : o = .takeSink conn := took
      have due := dueNext before found
      obtain ⟨present,_⟩ := (runOrderly closed before).present i conn (servingNext found due)
      refine ⟨(execAccepted _ w.shared conn).mpr (.inl ((runOrderly closed before).known conn present)),fun link here => ?_⟩
      rw [show ((machine lib expired key).performed w i c (.takeSink conn) next).shared =
        (exec lib expired (.takeSink conn) w.shared).2 from rfl,execLink] at here
      simp only [linkAfter,if_pos] at here
      obtain ⟨_,_,rfl⟩ := Option.map_eq_some_iff.mp here
      rfl
  · intro w e _ _ ih a member conn took
    obtain ⟨known,none⟩ := ih a member conn took
    exact ⟨by cases e <;> exact known,fun link here => none link (by cases e <;> exact here)⟩

/- An open connection that has given its sink away, and whoever serves it owes the removal. -/
structure Keeper (lib : Library) (place : Place) (w : World) (at' : SocketAddr) (conn : Conn) : Prop where
  own : keyOf lib conn = at'
  given : ∃ link, w.shared.links.lookup conn = some link ∧ link.sink = none
  owed : ∀ (i : Nat) t, w.tasks[i]? = some t → Serving w i conn → (debt lib place conn).Owed t.prog

section Step
variable {place : Place} {at' : SocketAddr} {conn : Conn} {i : Nat} {c : Call} {o : Op} {next : Resp o → Prog Op Resp Unit}

theorem keeperStays (orderly : Orderly w) (keeper : Keeper lib place w at' conn) (reach : (machine lib expired key).Reach ok s w)
    (found : w.tasks[i]? = some ⟨c,.op o next,true⟩) (ready : ready o w.shared = true) (kept : o ≠ place.removal at') :
    Keeper lib place ((machine lib expired key).performed w i c o next) at' conn := by
  have due := dueNext reach found
  obtain ⟨link,there,none⟩ := keeper.given
  have accepted : conn ∈ w.shared.accepted := orderly.known conn (by rw [there]; rfl)
  have fresh : ∀ config, o ≠ .connect conn config := by
    rintro config rfl
    exact of_decide_eq_true ready accepted
  -- whoever would end the connection owes the removal first
  have stays : o ≠ .disconnect conn := by
    rintro rfl
    rcases keeper.owed i _ found (servingNext found due) with removes | ⟨safe,_⟩
    · exact kept (by rw [← keeper.own]; exact removes)
    · exact safe rfl
  have here : (linkAfter conn (w.shared.links.lookup conn) o).isSome = true :=
    (openAfter conn _ o).mpr (.inl ⟨by rw [there]; rfl,stays⟩)
  obtain ⟨link',now⟩ := Option.isSome_iff_exists.mp here
  refine ⟨keeper.own,⟨link',(execLink o w.shared conn).trans now,?_⟩,fun j t task serving => ?_⟩
  · by_contra some
    obtain ⟨sink,inside⟩ := Option.ne_none_iff_exists'.mp some
    rcases sinkAfter now inside with ⟨config,connects,_⟩ | ⟨link'',sink',old,had,_⟩
    · exact fresh config connects
    · rw [there] at old
      cases old
      cases none.symm.trans had
  · have bound := (List.getElem?_eq_some_iff.mp found).1
    by_cases same : i = j
    · subst same
      rw [Machine.performed,List.getElem?_set_self bound] at task
      cases task
      rcases servingStep orderly found due serving with ⟨_,⟨config,connects⟩ | ⟨frame,receives⟩⟩ | ⟨old,_⟩
      · exact absurd connects (fresh config)
      · have honoured := honouredOnPath (Machine.taskPath reach found) (programHonoured place conn c)
        exact honoured.1 (.inl ⟨frame,receives⟩) _
      · rcases keeper.owed i _ found old with removes | ⟨_,later⟩
        · exact absurd (by rw [← keeper.own]; exact removes) kept
        · refine later _ fun sink read => ?_
          obtain rfl : o = .readSink conn := congrArg Sigma.fst read
          have answer : (w.shared.links.lookup conn).bind Link.sink = some sink := eq_of_heq (Sigma.mk.inj read).2
          rw [there] at answer
          cases none.symm.trans answer
    · rw [Machine.performed,List.getElem?_set_ne same] at task
      rcases servingStep orderly found due serving with ⟨wrong,_⟩ | ⟨old,_⟩
      · exact absurd wrong same
      · exact keeper.owed j t task old

/- Who stores a sink becomes the keeper. -/
theorem keeperStores (closed : s.links = ∅) (reach : (machine lib expired key).Reach ok s w) {sink : Sink}
    (found : w.tasks[i]? = some ⟨c,.op o next,true⟩) (stores : o = place.storing at' sink) :
    ∃ conn, Keeper lib place ((machine lib expired key).performed w i c o next) at' conn := by
  have orderly := runOrderly closed reach
  have due := dueNext reach found
  obtain ⟨conn,serves,rfl,taken⟩ : ∃ conn, Serves c (w.didsOf i) conn ∧ at' = lib.tryIntoV4 conn.addr ∧
      ⟨.takeSink conn,some sink⟩ ∈ w.didsOf i := by
    subst stores
    cases place <;> exact due
  have serving := servingNext found serves
  obtain ⟨link,there⟩ := Option.isSome_iff_exists.mp (orderly.present i conn serving).1
  obtain ⟨e,inside,_,did⟩ := didsOfMember.mp taken
  have gone := (takenGone closed reach e inside conn (congrArg Sigma.fst did)).2 link there
  have same : linkAfter conn (w.shared.links.lookup conn) o = w.shared.links.lookup conn := by
    subst stores
    cases place <;> rfl
  refine ⟨conn,rfl,⟨link,(execLink o w.shared conn).trans (same.trans there),gone⟩,fun j t task theirs => ?_⟩
  have other : Serving w j conn := by
    rcases servingStep orderly found due theirs with ⟨_,⟨config,wrong⟩ | ⟨frame,wrong⟩⟩ | ⟨old,_⟩
    · rw [stores] at wrong
      cases place <;> cases wrong
    · rw [stores] at wrong
      cases place <;> cases wrong
    · exact old
  obtain rfl := orderly.alone i j conn serving other
  rw [Machine.performed,List.getElem?_set_self (List.getElem?_eq_some_iff.mp found).1] at task
  cases task
  have honoured := honouredOnPath (Machine.taskPath reach found) (programHonoured place conn c)
  exact honoured.1 (.inr ⟨_,sink,stores⟩) _

end Step

theorem runKept (closed : s.links = ∅) (empty : s.tcpPunch = ∅ ∧ s.tcpPeers = ∅) (reach : (machine lib expired key).Reach ok s w) :
    ∀ place at', ((place.view w.shared).lookup at').isSome = true → ∃ conn, Keeper lib place w at' conn := by
  refine Machine.invariant (I := fun w => ∀ place at', ((place.view w.shared).lookup at').isSome = true →
    ∃ conn, Keeper lib place w at' conn) ?_ ?_ ?_ ?_ reach
  · intro place at' there
    cases place with
    | punch =>
      rw [Place.view,Machine.initial,empty.1] at there
      cases there
    | peers =>
      rw [Place.view,Machine.initial,empty.2] at there
      cases there
  · intro w c before _ ih place at' there
    obtain ⟨conn,own,given,owed⟩ := ih place at' there
    refine ⟨conn,own,given,fun i t task serving => ?_⟩
    obtain ⟨u,old,rest⟩ := (servingStarted before).mp serving
    have low := (List.getElem?_eq_some_iff.mp old).1
    rw [Machine.started,List.getElem?_append_left low] at task
    exact owed i t task ⟨u,old,rest⟩
  · intro w i c o next before _ found ready ih place at' there
    rcases viewAfter place o w.shared at' there with ⟨old,kept⟩ | ⟨sink,stores⟩
    · obtain ⟨conn,keeper⟩ := ih place at' old
      exact ⟨conn,keeperStays (runOrderly closed before) keeper before found ready kept⟩
    · exact keeperStores closed before found stores
  · intro w e _ _ ih place at' there
    obtain ⟨conn,own,given,owed⟩ := ih place at' (by cases e <;> cases place <;> exact there)
    exact ⟨conn,own,by cases e <;> exact given,owed⟩

end Runs

end OpenuuServer.SinkLeaks
