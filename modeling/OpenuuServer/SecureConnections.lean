import OpenuuServer.RendezvousService

/-! `secure_tcp`: hbbs offers a key on every new TCP connection. If the first frame accepts it, all
that is read and written from then on is encrypted, wherever the sink of the connection lies by
then; if not, the connection stays in clear text. -/
namespace OpenuuServer.SecureConnections
open AtomicProgram RendezvousMessages RendezvousServer RendezvousPrograms RendezvousService
open PeerRegistry (Bytes SocketAddr)

def receives (conn : Conn) : Op → Bool
  | .receive conn' _ => conn' = conn
  | _ => false

def frameOn (conn : Conn) : Op → Option Bytes
  | .receive conn' frame => if conn' = conn then frame else none
  | _ => none

def keyOn (conn : Conn) : Op → Option Bytes
  | .secure conn' key => if conn' = conn then some key else none
  | _ => none

/- The frames that a history has of a connection, and the key agreed on there. -/
def heard (conn : Conn) (log : List (Event Op Resp Call Server)) : List Bytes :=
  log.filterMap fun e => frameOn conn e.did.1

def agreed (conn : Conn) (log : List (Event Op Resp Call Server)) : Option Bytes :=
  log.findSome? fun e => keyOn conn e.did.1

/- After the event that was its first, the task runs this program. -/
def Continues (w : World) (e : Event Op Resp Call Server) (p : Prog Op Resp Unit) : Prop :=
  ∃ t rest, w.tasks[e.task]? = some t ∧ w.didsOf e.task = e.did :: rest ∧ Path p rest t.prog

structure Secured (lib : Library) (name : String) (w : World) (conn : Conn) : Prop where
  once : ∀ e ∈ w.log, ∀ e' ∈ w.log, ∀ key key', e.did.1 = .secure conn key → e'.did.1 = .secure conn key' → e = e'
  first : ∀ e ∈ w.log, ∀ key, e.did.1 = .secure conn key → ∃ r ∈ w.log, ∃ frame link secret keys,
    r.task = e.task ∧ r.pos < e.pos ∧ r.did = ⟨.receive conn (some frame),some link⟩ ∧ heard conn (w.earlier e) = [frame] ∧
    link.offer = some secret ∧ lib.parse frame = some (.keyExchange keys) ∧ accept lib secret keys = some key
  handed : ∀ r ∈ w.log, ∀ frame link, r.did = ⟨.receive conn (some frame),some link⟩ →
    ∃ draws, r.call = .tcp conn frame draws ∧ Continues w r (serve lib name conn frame draws link)
  decrypted : ∀ r ∈ w.log, ∀ frame link key, r.did = ⟨.receive conn (some frame),some link⟩ →
    agreed conn (w.earlier r) = some key →
    treat lib link frame = match lib.decrypt key (heard conn (w.earlier r)).tail frame with
      | some bytes => .handle bytes
      | none => .refuse
  clear : ∀ r ∈ w.log, ∀ frame link, r.did = ⟨.receive conn (some frame),some link⟩ →
    agreed conn (w.earlier r) = none → heard conn (w.earlier r) ≠ [] → treat lib link frame = .handle frame
  unsecured : ∀ r ∈ w.log, ∀ frame link, r.did = ⟨.receive conn (some frame),some link⟩ → heard conn (w.earlier r) = [] →
    (∀ key, treat lib link frame ≠ .exchange key) → agreed conn w.log = none
  written : ∀ e ∈ w.log, ∀ sink m, e.did.1 = .send (.sink sink) m → owner sink = some conn →
    sink = .tcpStream conn (agreed conn (w.earlier e))
  ended : ∀ r ∈ w.log, ∀ frame link, r.did = ⟨.receive conn (some frame),some link⟩ → treat lib link frame = .refuse →
    Continues w r (closing lib conn) ∧ ∀ r' ∈ w.log, receives conn r'.did.1 = true → r'.pos ≤ r.pos

/- The connection that a call reads from, and the frame, if there is one. -/
def reading : Call → Option (Conn × Option Bytes)
  | .tcp conn frame _ => some (conn,some frame)
  | .close conn => some (conn,none)
  | _ => none

section Programs
variable (lib : Library) (name : String)

def afterwards (c : Call) (link : Option Link) : Prog Op Resp Unit :=
  match c with
  | .tcp conn frame draws => match link with
    | some link => serve lib name conn frame draws link
    | none => .ret ()
  | .close conn => closing lib conn
  | _ => .ret ()

/- The connection ends without the frame being handled. -/
def leaves (link : Link) : Option Bytes → Bool
  | some frame => treat lib link frame = .refuse
  | none => true

end Programs

def closes (conn : Conn) : Op → Bool
  | .readSink conn' | .disconnect conn' => conn' = conn
  | .punchRemove _ | .peersRemove _ => true
  | _ => false

/- The operations of a task that has not yet received, or does not receive at all. -/
def quiet : Op → Bool
  | .receive _ _ | .takeSink _ | .readSink _ => false
  | _ => true

section Shapes
variable {lib : Library} {name : String} {c : Call} {conn : Conn} {frame : Option Bytes} {link : Link}

theorem readsFirst (reads : reading c = some (conn,frame)) :
    program lib name c = .op (.receive conn frame) (afterwards lib name c) := by
  cases c with
  | tcp conn' frame' draws =>
    cases Option.some.inj reads
    rfl
  | close conn' =>
    cases Option.some.inj reads
    rfl
  | _ => cases reads

/- A call that runs on behalf of a connection accepts it or reads from it. -/
theorem behalfReads (mine : behalf c = some conn) :
    (∃ secret publicKey, c = .accept conn secret publicKey) ∨ ∃ frame, reading c = some (conn,frame) := by
  cases c with
  | accept conn' secret publicKey =>
    cases Option.some.inj mine
    exact .inl ⟨secret,publicKey,rfl⟩
  | tcp conn' frame draws =>
    cases Option.some.inj mine
    exact .inr ⟨_,rfl⟩
  | close conn' =>
    cases Option.some.inj mine
    exact .inr ⟨_,rfl⟩
  | _ => cases mine

theorem acceptQuiet (name : String) (secret publicKey : Bytes) :
    (program lib name (.accept conn secret publicKey)).Every fun o => quiet o = true := by
  refine ⟨rfl,fun config => ⟨rfl,fun _ => ⟨rfl,fun _ => ?_⟩⟩⟩
  refine everyIte.mpr ⟨fun _ => ?_,fun _ => ⟨rfl,fun _ => trivial⟩⟩
  cases (config : Config).inner.sk with
  | none => exact ⟨rfl,fun _ => trivial⟩
  | some sk => exact ⟨rfl,fun _ => ⟨rfl,fun _ => ⟨rfl,fun _ => trivial⟩⟩⟩

theorem closingCloses : (closing lib conn).Every fun o => closes conn o = true :=
  everyClosing (decide_eq_true rfl) rfl rfl (decide_eq_true rfl)

/- What a task does next that has received: it agrees on a key and is done; or it ends the
connection; or it handles the frame, and then the offer is withdrawn first. -/
theorem nextAfter (reads : reading c = some (conn,frame)) {rest : List (Did Op Resp)} {o : Op}
    {next : Resp o → Prog Op Resp Unit} (path : Path (afterwards lib name c (some link)) rest (.op o next)) :
    (∃ bytes key, frame = some bytes ∧ treat lib link bytes = .exchange key ∧
      (rest = [] ∧ o = .secure conn key ∨ rest = [⟨.secure conn key,()⟩] ∧ o = .served conn)) ∨
    (leaves lib link frame = true ∧ closes conn o = true) ∨
    (leaves lib link frame = false ∧ (rest = [] → link.offer.isSome = true → o = .offerKey conn none)) := by
  cases c with
  | tcp conn' bytes draws =>
    cases Option.some.inj reads
    simp only [afterwards,serve] at path
    split at path
    · rename_i key agrees
      refine .inl ⟨bytes,key,rfl,agrees,?_⟩
      rcases pathOp.mp path with ⟨rfl,same⟩ | ⟨_,later,rfl,further⟩
      · cases same
        exact .inl ⟨rfl,rfl⟩
      · rcases pathOp.mp further with ⟨rfl,same⟩ | ⟨_,_,_,ended⟩
        · cases same
          exact .inr ⟨rfl,rfl⟩
        · cases (pathRet.mp ended).2
    · rename_i refused
      exact .inr (.inl ⟨decide_eq_true refused,(everyOnPath path closingCloses).2.1⟩)
    · rename_i handled treated
      refine .inr (.inr ⟨decide_eq_false (by rw [treated]; exact Treatment.noConfusion),?_⟩)
      rintro rfl offers
      rw [if_pos offers] at path
      rcases pathOp.mp path with ⟨_,same⟩ | ⟨_,_,long,_⟩
      · cases same
        rfl
      · cases long
  | close conn' =>
    cases Option.some.inj reads
    exact .inr (.inl ⟨rfl,(everyOnPath path closingCloses).2.1⟩)
  | _ => cases reads

/- Only an offer puts a secret key into a link. -/
theorem offerAfter {l : Option Link} {o : Op} {now : Link} (found : linkAfter conn l o = some now) :
    now.offer = none ∨ (∃ old, l = some old ∧ old.offer = now.offer) ∨ ∃ secret, o = .offerKey conn (some secret) := by
  unfold linkAfter at found
  split at found
  · split at found
    · cases Option.some.inj found
      exact .inl rfl
    · exact .inr (.inl ⟨now,found,rfl⟩)
  · split at found
    · cases found
    · exact .inr (.inl ⟨now,found,rfl⟩)
  · split at found
    · obtain ⟨old,had,rfl⟩ := Option.map_eq_some_iff.mp found
      exact .inr (.inl ⟨old,had,rfl⟩)
    · exact .inr (.inl ⟨now,found,rfl⟩)
  · rename_i conn' secret
    split at found
    · rename_i same
      subst same
      obtain ⟨old,had,rfl⟩ := Option.map_eq_some_iff.mp found
      cases secret with
      | none => exact .inl rfl
      | some secret => exact .inr (.inr ⟨secret,rfl⟩)
    · exact .inr (.inl ⟨now,found,rfl⟩)
  · split at found
    · obtain ⟨old,had,rfl⟩ := Option.map_eq_some_iff.mp found
      exact .inl rfl
    · exact .inr (.inl ⟨now,found,rfl⟩)
  · split at found
    · obtain ⟨old,had,rfl⟩ := Option.map_eq_some_iff.mp found
      exact .inr (.inl ⟨old,had,rfl⟩)
    · exact .inr (.inl ⟨now,found,rfl⟩)
  · exact .inr (.inl ⟨now,found,rfl⟩)

end Shapes

section Runs
variable {lib : Library} {expired : Nat → Nat} {name : String} {ok : World → Act Call Env → Prop} {s : Server} {w : World}
variable {conn : Conn} {frame : Option Bytes}

/- A frame is the first that happens to the task that handles it, -/
theorem firstEvent (reach : (machine lib expired name).Reach ok s w) {r} (member : r ∈ w.log)
    (received : r.did.1 = .receive conn frame) : ∃ rest, w.eventsOf r.task = r :: rest := by
  have due := dueEvent reach member
  rw [received] at due
  have nothing : w.past r = [] := List.map_eq_nil_iff.mp due.2
  have inside : r ∈ w.eventsOf r.task := List.mem_filter.mpr ⟨member,decide_eq_true rfl⟩
  cases events : w.eventsOf r.task with
  | nil =>
    rw [events] at inside
    cases inside
  | cons a rest =>
    have order := Machine.eventsIncreasing reach r.task
    rw [events] at inside order
    rcases List.mem_cons.mp inside with rfl | later
    · exact ⟨rest,rfl⟩
    · have head : a ∈ w.eventsOf r.task := by rw [events]; exact List.mem_cons_self
      obtain ⟨there,task⟩ := List.mem_filter.mp head
      have early : a ∈ w.past r :=
        List.mem_filter.mpr ⟨there,decide_eq_true ⟨of_decide_eq_true task,List.rel_of_pairwise_cons order later⟩⟩
      rw [nothing] at early
      cases early

theorem firstDid (reach : (machine lib expired name).Reach ok s w) {r} (member : r ∈ w.log)
    (received : r.did.1 = .receive conn frame) : ∃ rest, w.didsOf r.task = r.did :: rest := by
  obtain ⟨rest,events⟩ := firstEvent reach member received
  exact ⟨rest.map Event.did,by rw [Pool.didsOf,events]; rfl⟩

/- so that a task receives only once. -/
theorem sameFrame (reach : (machine lib expired name).Reach ok s w) {r r'} (member : r ∈ w.log) (member' : r' ∈ w.log)
    {conn' frame'} (received : r.did.1 = .receive conn frame) (received' : r'.did.1 = .receive conn' frame')
    (task : r.task = r'.task) : r = r' := by
  obtain ⟨rest,events⟩ := firstEvent reach member received
  obtain ⟨rest',events'⟩ := firstEvent reach member' received'
  rw [task,events'] at events
  exact (List.cons.inj events).1.symm

theorem quietAccept (reach : (machine lib expired name).Reach ok s w) {e} (member : e ∈ w.log) {secret publicKey}
    (accepts : e.call = .accept conn secret publicKey) : quiet e.did.1 = true := by
  obtain ⟨next,path⟩ := Machine.eventPath reach member
  rw [accepts] at path
  exact (everyOnPath path (acceptQuiet name secret publicKey)).2.1

theorem readerCall (reach : (machine lib expired name).Reach ok s w) {r} (member : r ∈ w.log)
    (received : r.did.1 = .receive conn frame) : reading r.call = some (conn,frame) := by
  have due := dueEvent reach member
  rw [received] at due
  rcases behalfReads due.1 with ⟨secret,publicKey,accepts⟩ | ⟨frame',reads⟩
  · have silent := quietAccept reach member accepts
    rw [received] at silent
    cases silent
  · obtain ⟨next,path⟩ := Machine.eventPath reach member
    rw [due.2] at path
    change Path (program lib name r.call) [] _ at path
    rw [readsFirst reads] at path
    rcases pathOp.mp path with ⟨_,same⟩ | ⟨_,_,long,_⟩
    · injection same with same
      rw [received] at same
      cases same
      exact reads
    · cases long

theorem continues (reach : (machine lib expired name).Reach ok s w) {r} (member : r ∈ w.log) {link}
    (received : r.did = ⟨.receive conn frame,link⟩) : Continues w r (afterwards lib name r.call link) := by
  have op : r.did.1 = .receive conn frame := by rw [received]
  obtain ⟨t,found,call⟩ := Machine.eventTask reach r member
  obtain ⟨rest,dids⟩ := firstDid reach member op
  have path := Machine.taskPath reach found
  rw [call,dids,received] at path
  change Path (program lib name r.call) _ _ at path
  rw [readsFirst (readerCall reach member op)] at path
  rcases pathOp.mp path with ⟨nothing,_⟩ | ⟨_,_,same,further⟩
  · cases nothing
  · cases same
    exact ⟨t,rest,found,dids,further⟩

/- A task that takes or reads the sink of its connection received from it before. -/
theorem takerReceived (reach : (machine lib expired name).Reach ok s w) {a} (member : a ∈ w.log)
    (takes : a.did.1 = .takeSink conn ∨ a.did.1 = .readSink conn) :
    ∃ r ∈ w.log, r.task = a.task ∧ r.pos < a.pos ∧ receives conn r.did.1 = true := by
  have due := dueEvent reach member
  have loud : quiet a.did.1 = false := by rcases takes with op | op <;> rw [op] <;> rfl
  have mine : behalf a.call = some conn := by
    rcases takes with op | op <;> rw [op] at due <;> exact due.1
  rcases behalfReads mine with ⟨secret,publicKey,accepts⟩ | ⟨frame,reads⟩
  · rw [quietAccept reach member accepts] at loud
    cases loud
  · obtain ⟨next,path⟩ := Machine.eventPath reach member
    change Path (program lib name a.call) _ _ at path
    rw [readsFirst reads] at path
    rcases pathOp.mp path with ⟨_,same⟩ | ⟨link,_,before,_⟩
    · injection same with same
      rcases takes with op | op <;> rw [op] at same <;> cases same
    · have first : ⟨.receive conn frame,link⟩ ∈ (w.past a).map Event.did := by rw [before]; exact List.mem_cons_self
      obtain ⟨r,there,did⟩ := List.mem_map.mp first
      obtain ⟨inside,same⟩ := List.mem_filter.mp there
      obtain ⟨task,less⟩ := of_decide_eq_true same
      exact ⟨r,inside,task,less,by rw [did]; exact decide_eq_true rfl⟩

theorem receivesIs {o : Op} (hit : receives conn o = true) : ∃ frame, o = .receive conn frame := by
  cases o with
  | receive conn' frame =>
    cases of_decide_eq_true hit
    exact ⟨frame,rfl⟩
  | _ => cases hit

theorem frameReceives {o : Op} {bytes : Bytes} (framed : frameOn conn o = some bytes) : receives conn o = true := by
  unfold frameOn at framed
  split at framed
  · exact decide_eq_true (Option.ite_none_right_eq_some.mp framed).1
  · cases framed

/- How far the reading of a connection has come. -/
structure Footing (lib : Library) (w : World) : Prop where
  known : ∀ r ∈ w.log, ∀ conn, receives conn r.did.1 = true → conn ∈ w.shared.accepted
  unheard : ∀ i conn, Serving w i conn → (∀ d ∈ w.didsOf i, receives conn d.1 = false) →
    ∀ r ∈ w.log, receives conn r.did.1 = false
  hearing : ∀ i conn frame link, w.didsOf i = [⟨.receive conn frame,some link⟩] →
    w.shared.links.lookup conn = linkAfter conn (some link) (.receive conn frame)
  settled : ∀ i conn frame link d rest, w.didsOf i = ⟨.receive conn frame,some link⟩ :: d :: rest → Serving w i conn →
    leaves lib link frame = false → ∀ now, w.shared.links.lookup conn = some now → now.offer = none
  fates : ∀ r ∈ w.log, ∀ conn frame link, r.did = ⟨.receive conn frame,some link⟩ → Serving w r.task conn ∨
    ∀ now, w.shared.links.lookup conn = some now → now.offer = none ∧ leaves lib link frame = false

/- A task that did something is there, -/
theorem doneBy (reach : (machine lib expired name).Reach ok s w) {i d rest} (dids : w.didsOf i = d :: rest) :
    ∃ e ∈ w.log, e.task = i ∧ e.did = d ∧ ∃ t, w.tasks[i]? = some t ∧ t.call = e.call := by
  have first : d ∈ w.didsOf i := by rw [dids]; exact List.mem_cons_self
  obtain ⟨e,inside,rfl,did⟩ := didsOfMember.mp first
  exact ⟨e,inside,rfl,did,Machine.eventTask reach e inside⟩

/- and serves the connection it has just received from. -/
theorem hearerServes (reach : (machine lib expired name).Reach ok s w) {i link}
    (dids : w.didsOf i = [⟨.receive conn frame,link⟩]) : Serving w i conn := by
  obtain ⟨e,inside,rfl,did,t,found,call⟩ := doneBy reach dids
  have due := dueEvent reach inside
  rw [did] at due
  exact ⟨t,found,by rw [call]; exact due.1,by rw [dids]; rfl⟩

theorem hearerReads (reach : (machine lib expired name).Reach ok s w) {i t link rest} (found : w.tasks[i]? = some t)
    (dids : w.didsOf i = ⟨.receive conn frame,link⟩ :: rest) :
    reading t.call = some (conn,frame) ∧ Path (afterwards lib name t.call link) rest t.prog := by
  obtain ⟨e,inside,rfl,did,t',found',call⟩ := doneBy reach dids
  cases Option.some.inj (found.symm.trans found')
  obtain ⟨t',rest',there,dids',path⟩ := continues reach inside did
  cases Option.some.inj (found.symm.trans there)
  have same := dids.symm.trans dids'
  injection same with _ same
  rw [call,same]
  exact ⟨readerCall reach inside (by rw [did]),path⟩

section Step
variable {i : Nat} {c : Call} {o : Op} {next : Resp o → Prog Op Resp Unit}

theorem knownStep (orderly : Orderly w) (ready : ready o w.shared = true) (ih : Footing lib w) {r}
    (member : r ∈ ((machine lib expired name).performed w i c o next).log) (received : receives conn r.did.1 = true) :
    conn ∈ ((machine lib expired name).performed w i c o next).shared.accepted := by
  simp only [Machine.performed,machine,execAccepted]
  rcases Machine.memPerformed.mp member with old | rfl
  · exact .inl (ih.known r old conn received)
  · obtain ⟨frame,rfl⟩ := receivesIs received
    exact .inl (orderly.known conn (Bool.and_eq_true_iff.mp ready).1)

/- Nobody receives from a connection in service. -/
theorem unreceived (orderly : Orderly w) (ready : ready o w.shared = true) {j} (serving : Serving w j conn) :
    receives conn o = false := by
  refine Bool.eq_false_iff.mpr fun received => ?_
  obtain ⟨frame,rfl⟩ := receivesIs received
  exact of_decide_eq_true (Bool.and_eq_true_iff.mp ready).2 (orderly.present j conn serving).2

theorem unheardStep (orderly : Orderly w) (found : w.tasks[i]? = some ⟨c,.op o next,true⟩)
    (due : Due lib c (w.didsOf i) o) (ready : ready o w.shared = true) (ih : Footing lib w) {j}
    (serving : Serving ((machine lib expired name).performed w i c o next) j conn)
    (silent : ∀ d ∈ ((machine lib expired name).performed w i c o next).didsOf j, receives conn d.1 = false) :
    ∀ r ∈ ((machine lib expired name).performed w i c o next).log, receives conn r.did.1 = false := by
  rw [Machine.didsPerformed] at silent
  intro r member
  rcases servingStep orderly found due serving with ⟨rfl,⟨config,rfl⟩ | ⟨frame,rfl⟩⟩ | ⟨old,_⟩
  · rcases Machine.memPerformed.mp member with earlier | rfl
    · refine Bool.eq_false_iff.mpr fun received => ?_
      exact of_decide_eq_true ready (ih.known r earlier conn received)
    · rfl
  · have spoke := silent ⟨.receive conn frame,_⟩ (by rw [if_pos rfl]; exact List.mem_append_right _ List.mem_cons_self)
    simp [receives] at spoke
  · rcases Machine.memPerformed.mp member with earlier | rfl
    · exact ih.unheard j conn old (fun d done => silent d (List.mem_append_left _ done)) r earlier
    · exact unreceived orderly ready old

theorem hearingStep (reach : (machine lib expired name).Reach ok s w) (orderly : Orderly w)
    (found : w.tasks[i]? = some ⟨c,.op o next,true⟩) (due : Due lib c (w.didsOf i) o) (ready : ready o w.shared = true)
    (ih : Footing lib w) {j link}
    (dids : ((machine lib expired name).performed w i c o next).didsOf j = [⟨.receive conn frame,some link⟩]) :
    ((machine lib expired name).performed w i c o next).shared.links.lookup conn =
      linkAfter conn (some link) (.receive conn frame) := by
  simp only [Machine.performed,machine,execLink]
  rw [Machine.didsPerformed] at dids
  by_cases same : i = j
  · subst same
    rw [if_pos rfl] at dids
    obtain ⟨_,last⟩ := List.append_inj' (dids.trans (List.nil_append _).symm) rfl
    injection last with last
    injection last with op given
    subst op
    rw [show w.shared.links.lookup conn = some link from eq_of_heq given]
  · rw [if_neg same,List.append_nil] at dids
    rw [linkKept orderly found due ready (hearerServes reach dids) same]
    exact ih.hearing j conn frame link dids

/- A task that has received offers nothing. -/
theorem readerOffersNothing (due : Due lib c (w.didsOf i) o) (reads : reading c = some (conn,frame)) (conn' : Conn)
    (secret : Bytes) : o ≠ .offerKey conn' (some secret) := by
  rintro rfl
  obtain ⟨_,publicKey,rfl⟩ := due
  cases reads

/- What a task that does not leave does second withdraws the offer. -/
theorem secondSettles (reach : (machine lib expired name).Reach ok s w) (found : w.tasks[i]? = some ⟨c,.op o next,true⟩)
    (due : Due lib c (w.didsOf i) o) (ih : Footing lib w) {link} (dids : w.didsOf i = [⟨.receive conn frame,some link⟩])
    (stays : leaves lib link frame = false) {now} (here : linkAfter conn (w.shared.links.lookup conn) o = some now) :
    now.offer = none := by
  obtain ⟨reads,path⟩ := hearerReads reach found dids
  rw [ih.hearing i conn frame link dids] at here
  have first : linkAfter conn (some link) (.receive conn frame) =
      some { link with dec := link.dec.map fun d => (d.1,d.2 ++ frame.toList) } := if_pos rfl
  rw [first] at here
  rcases nextAfter reads path with ⟨bytes,key,rfl,agrees,⟨_,rfl⟩ | ⟨long,_⟩⟩ | ⟨gone,_⟩ | ⟨_,withdraws⟩
  · simp only [linkAfter,if_pos,Option.map_some,Option.some.injEq] at here
    rw [← here]
  · cases long
  · rw [stays] at gone
    cases gone
  · cases offers : link.offer with
    | none =>
      rcases offerAfter here with silent | ⟨old,had,same⟩ | ⟨secret,rfl⟩
      · exact silent
      · cases Option.some.inj had
        exact same.symm.trans offers
      · exact absurd rfl (readerOffersNothing due reads conn secret)
    | some secret =>
      rw [withdraws rfl (by rw [offers]; rfl)] at here
      simp only [linkAfter,if_pos,Option.map_some,Option.some.injEq] at here
      rw [← here]

theorem settledStep (reach : (machine lib expired name).Reach ok s w) (orderly : Orderly w)
    (found : w.tasks[i]? = some ⟨c,.op o next,true⟩) (due : Due lib c (w.didsOf i) o) (ready : ready o w.shared = true)
    (ih : Footing lib w) {j link d rest}
    (dids : ((machine lib expired name).performed w i c o next).didsOf j = ⟨.receive conn frame,some link⟩ :: d :: rest)
    (serving : Serving ((machine lib expired name).performed w i c o next) j conn) (stays : leaves lib link frame = false)
    {now} (here : ((machine lib expired name).performed w i c o next).shared.links.lookup conn = some now) :
    now.offer = none := by
  simp only [Machine.performed,machine,execLink] at here
  rw [Machine.didsPerformed] at dids
  by_cases same : i = j
  · subst same
    rw [if_pos rfl] at dids
    cases done : w.didsOf i with
    | nil =>
      rw [done] at dids
      cases (List.cons.inj dids).2
    | cons first others =>
      have head : first = ⟨.receive conn frame,some link⟩ := by
        rw [done] at dids
        exact (List.cons.inj dids).1
      subst head
      cases others with
      | nil => exact secondSettles reach found due ih done stays here
      | cons d' rest' =>
        obtain ⟨reads,_⟩ := hearerReads reach found done
        have old : Serving w i conn := by
          rcases servingStep orderly found due serving with ⟨_,⟨config,rfl⟩ | ⟨frame',rfl⟩⟩ | ⟨old,_⟩
          · obtain ⟨secret,publicKey,rfl⟩ := due
            cases reads
          · rw [done] at due
            cases due.2
          · exact old
        rcases offerAfter here with silent | ⟨before,had,same⟩ | ⟨secret,rfl⟩
        · exact silent
        · exact same.symm.trans (ih.settled i conn frame link d' rest' done old stays before had)
        · exact absurd rfl (readerOffersNothing due reads conn secret)
  · rw [if_neg same,List.append_nil] at dids
    rw [servingPerformed found,if_neg same] at serving
    rw [linkKept orderly found due ready serving same] at here
    exact ih.settled j conn frame link d rest dids serving stays now here

/- A task that is done with a frame has settled the offer and does not leave. -/
theorem servedSettles (reach : (machine lib expired name).Reach ok s w) {next : Unit → Prog Op Resp Unit}
    (found : w.tasks[i]? = some ⟨c,.op (.served conn) next,true⟩) (ih : Footing lib w) {link rest}
    (dids : w.didsOf i = ⟨.receive conn frame,some link⟩ :: rest) (serving : Serving w i conn) :
    leaves lib link frame = false ∧ ∀ now, w.shared.links.lookup conn = some now → now.offer = none := by
  obtain ⟨reads,path⟩ := hearerReads reach found dids
  rcases nextAfter reads path with ⟨bytes,key,rfl,agrees,⟨_,other⟩ | ⟨rfl,_⟩⟩ | ⟨_,other⟩ | ⟨stays,withdraws⟩
  · cases other
  · have stays : leaves lib link (some bytes) = false := decide_eq_false (by rw [agrees]; exact Treatment.noConfusion)
    exact ⟨stays,ih.settled i conn _ link _ _ dids serving stays⟩
  · cases other
  · refine ⟨stays,?_⟩
    cases rest with
    | nil =>
      intro now here
      cases offers : link.offer with
      | none =>
        rw [ih.hearing i conn frame link dids] at here
        simp only [linkAfter,if_pos,Option.map_some,Option.some.injEq] at here
        rw [← here]
        exact offers
      | some secret => cases withdraws rfl (by rw [offers]; rfl)
    | cons d rest => exact ih.settled i conn frame link d rest dids serving stays

theorem fatesStep (reach : (machine lib expired name).Reach ok s w) (found : w.tasks[i]? = some ⟨c,.op o next,true⟩)
    (due : Due lib c (w.didsOf i) o) (ready : ready o w.shared = true) (ih : Footing lib w) {r}
      (member : r ∈ ((machine lib expired name).performed w i c o next).log) {link}
    (received : r.did = ⟨.receive conn frame,some link⟩) :
    Serving ((machine lib expired name).performed w i c o next) r.task conn ∨
    ∀ now, ((machine lib expired name).performed w i c o next).shared.links.lookup conn = some now →
      now.offer = none ∧ leaves lib link frame = false := by
  have hit : receives conn r.did.1 = true := by rw [received]; exact decide_eq_true rfl
  simp only [servingPerformed found]
  simp only [Machine.performed,machine,execLink]
  rcases Machine.memPerformed.mp member with old | rfl
  · rcases ih.fates r old conn frame link received with serving | fate
    · by_cases same : i = r.task
      · subst same
        obtain ⟨rest,dids⟩ := firstDid reach old (by rw [received])
        rw [received] at dids
        have mine := serving
        obtain ⟨t,there,behalf,busy⟩ := mine
        cases Option.some.inj (found.symm.trans there)
        rw [if_pos rfl]
        cases o with
        | served conn' =>
          cases Option.some.inj (due.1.symm.trans behalf)
          obtain ⟨stays,silent⟩ := servedSettles reach found ih dids serving
          exact .inr fun now here => ⟨silent now here,stays⟩
        | disconnect conn' =>
          cases Option.some.inj (due.1.symm.trans behalf)
          refine .inr fun now here => ?_
          rw [linkAfter,if_pos rfl] at here
          cases here
        | connect conn' config => exact .inl ⟨behalf,rfl⟩
        | receive conn' frame' => exact .inl ⟨behalf,rfl⟩
        | _ => exact .inl ⟨behalf,busy⟩
      · rw [if_neg same]
        exact .inl serving
    · refine .inr fun now here => ?_
      have opened : (linkAfter conn (w.shared.links.lookup conn) o).isSome = true := by rw [here]; rfl
      rcases (openAfter _ _ _).mp opened with ⟨before,_⟩ | ⟨config,rfl⟩
      · obtain ⟨old',had⟩ := Option.isSome_iff_exists.mp before
        refine ⟨?_,(fate old' had).2⟩
        rcases offerAfter here with silent | ⟨old',had,same⟩ | ⟨secret,rfl⟩
        · exact silent
        · exact same.symm.trans (fate old' had).1
        · -- a key is offered before any frame is received
          obtain ⟨serves,publicKey,rfl⟩ := due
          have quietly := (everyOnPath (Machine.taskPath reach found) (acceptQuiet name secret publicKey)).1
          have none := ih.unheard i conn (servingNext found serves) (fun d done => ?_) r old
          · rw [hit] at none
            cases none
          · refine Bool.eq_false_iff.mpr fun received => ?_
            obtain ⟨frame,op⟩ := receivesIs received
            have silent := quietly d done
            rw [op] at silent
            cases silent
      · exact absurd (ih.known r old conn hit) (of_decide_eq_true ready)
  · have op : o = .receive conn frame := congrArg Sigma.fst received
    subst op
    exact .inl (by rw [Machine.happening,if_pos rfl]; exact ⟨due.1,rfl⟩)

end Step

theorem runFooting (closed : s.links = ∅) (reach : (machine lib expired name).Reach ok s w) : Footing lib w := by
  refine Machine.invariant (I := Footing lib) ?_ ?_ ?_ ?_ reach
  · have nothing : ∀ r, r ∉ (Machine.initial s : World).log := fun r => List.not_mem_nil
    refine ⟨fun r member => absurd member (nothing r),fun i conn _ _ r member => absurd member (nothing r),?_,?_,
      fun r member => absurd member (nothing r)⟩
    · intro i conn frame link dids
      cases dids
    · intro i conn frame link d rest dids
      cases dids
  · intro w c before _ ih
    have serving : ∀ {i conn}, Serving ((machine lib expired name).started w c) i conn ↔ Serving w i conn :=
      servingStarted before
    exact ⟨ih.known,fun i conn serves => ih.unheard i conn (serving.mp serves),ih.hearing,
      fun i conn frame link d rest dids serves => ih.settled i conn frame link d rest dids (serving.mp serves),
      fun r member conn frame link received => (ih.fates r member conn frame link received).imp_left serving.mpr⟩
  · intro w i c o next before _ found ready ih
    have due := dueNext before found
    have orderly := runOrderly closed before
    exact ⟨fun r member conn received => knownStep orderly ready ih member received,
      fun j conn serving silent => unheardStep orderly found due ready ih serving silent,
      fun j conn frame link dids => hearingStep before orderly found due ready ih dids,
      fun j conn frame link d rest dids serving stays now here =>
        settledStep before orderly found due ready ih dids serving stays here,
      fun r member conn frame link received => fatesStep before found due ready ih member received⟩
  · intro w e _ _ ih
    have same : (Env.apply e w.shared).links = w.shared.links ∧ (Env.apply e w.shared).accepted = w.shared.accepted := by
      cases e <;> exact ⟨rfl,rfl⟩
    refine ⟨?_,ih.unheard,?_,?_,?_⟩
    · simp only [Machine.disturbed,machine,same.2]
      exact ih.known
    · simp only [Machine.disturbed,machine,same.1]
      exact ih.hearing
    · simp only [Machine.disturbed,machine,same.1]
      exact ih.settled
    · simp only [Machine.disturbed,machine,same.1]
      exact ih.fates

/- A KeyExchange is accepted by the link that the first frame found. -/
theorem exchangeOffer {link : Link} {bytes key : Bytes} (agrees : treat lib link bytes = .exchange key) :
    link.dec = none ∧ ∃ secret keys, link.offer = some secret ∧ lib.parse bytes = some (.keyExchange keys) ∧
      accept lib secret keys = some key := by
  unfold treat at agrees
  split at agrees
  · split at agrees <;> cases agrees
  · rename_i undecided
    refine ⟨undecided,?_⟩
    split at agrees
    · cases agrees
    · rename_i secret offers
      split at agrees
      · rename_i keys parsed
        split at agrees
        · rename_i symmetric accepted
          cases agrees
          exact ⟨secret,keys,offers,parsed,accepted⟩
        · cases agrees
      · cases agrees

theorem frameLink (reach : (machine lib expired name).Reach ok s w) {r} (member : r ∈ w.log)
    (received : receives conn r.did.1 = true) : ∃ frame link, r.did = ⟨.receive conn frame,some link⟩ := by
  have real := realEvents reach member
  obtain ⟨frame,op⟩ := receivesIs received
  obtain ⟨pos,task,call,before,o,response⟩ := r
  subst op
  cases (response : Option Link) with
  | none => cases real
  | some link => exact ⟨frame,link,rfl⟩

theorem inPast {e r : Event Op Resp Call Server} (alone : w.past e = [r]) :
    r ∈ w.log ∧ r.task = e.task ∧ r.pos < e.pos := by
  have there : r ∈ w.past e := by rw [alone]; exact List.mem_cons_self
  obtain ⟨inside,same⟩ := List.mem_filter.mp there
  exact ⟨inside,of_decide_eq_true same⟩

/- When a key is agreed on, its task has received the only frame of the connection so far. -/
theorem onlyFrame (closed : s.links = ∅) (reach : (machine lib expired name).Reach ok s w) {e} (member : e ∈ w.log) {key}
    (secures : e.did.1 = .secure conn key) : ∃ r bytes link, w.past e = [r] ∧ r.did = ⟨.receive conn (some bytes),some link⟩ ∧
      treat lib link bytes = .exchange key ∧ ∀ r' ∈ w.log, r'.pos < e.pos → receives conn r'.did.1 = true → r' = r := by
  obtain ⟨v,reached,_,_,history,_,_,next,found⟩ := Machine.moment reach member
  have due := dueEvent reach member
  rw [secures] at due
  obtain ⟨bytes,draws,link,_,past,agrees⟩ := due
  obtain ⟨r,alone,did⟩ := List.map_eq_singleton_iff.mp past
  refine ⟨r,bytes,link,alone,did,agrees,fun r' member' less received => ?_⟩
  obtain ⟨inside,task,early⟩ := inPast alone
  have there : r ∈ v.log := (history r).mpr ⟨inside,early⟩
  have there' : r' ∈ v.log := (history r').mpr ⟨member',less⟩
  have dids : v.didsOf e.task = [⟨.receive conn (some bytes),some link⟩] := by
    have due := dueNext reached found
    rw [secures] at due
    obtain ⟨bytes',draws',link',_,done,_⟩ := due
    have first : r.did ∈ v.didsOf e.task := didsOfMember.mpr ⟨r,there,task,rfl⟩
    rw [done,did] at first
    rw [done,List.mem_singleton.mp first]
  obtain ⟨frame',link',did'⟩ := frameLink reached there' received
  have footing := runFooting closed reached
  rcases footing.fates r' there' conn frame' link' did' with serving | fate
  · have task' := (runOrderly closed reached).alone _ _ _ serving (hearerServes reached dids)
    exact sameFrame reached there' there (by rw [did']) (by rw [did]) (task'.trans task.symm)
  · obtain ⟨_,secret,_,offers,_⟩ := exchangeOffer agrees
    have silent := (fate _ ((footing.hearing _ _ _ _ dids).trans (if_pos rfl))).1
    rw [offers] at silent
    cases silent

theorem agreedOnce (closed : s.links = ∅) (reach : (machine lib expired name).Reach ok s w) {e e'} (member : e ∈ w.log)
    (member' : e' ∈ w.log) {key key'} (secures : e.did.1 = .secure conn key) (secures' : e'.did.1 = .secure conn key') :
    e = e' := by
  have never : ∀ {a a' : Event Op Resp Call Server} {k k'}, a ∈ w.log → a' ∈ w.log → a.did.1 = .secure conn k →
      a'.did.1 = .secure conn k' → ¬ a.pos < a'.pos := by
    intro a a' k k' inside inside' first second less
    obtain ⟨r,bytes,link,alone,did,_,_⟩ := onlyFrame closed reach inside first
    obtain ⟨r',bytes',link',alone',did',_,only⟩ := onlyFrame closed reach inside' second
    obtain ⟨there,task,early⟩ := inPast alone
    obtain ⟨_,task',_⟩ := inPast alone'
    cases only r there (by omega) (by rw [did]; exact decide_eq_true rfl)
    have also : a ∈ w.past a' := List.mem_filter.mpr ⟨inside,decide_eq_true ⟨task.symm.trans task',less⟩⟩
    rw [alone'] at also
    cases List.mem_singleton.mp also
    rw [did] at first
    cases first
  rcases Nat.lt_trichotomy e.pos e'.pos with less | same | more
  · exact absurd less (never member member' secures secures')
  · exact Machine.samePosition reach member member' same
  · exact absurd more (never member' member secures' secures)

/- The sink of a connection leaves its task only after a key was agreed on, if one ever is. -/
theorem takenLater (closed : s.links = ∅) (reach : (machine lib expired name).Reach ok s w) {a e} (taken : a ∈ w.log)
    (member : e ∈ w.log) (takes : a.did.1 = .takeSink conn ∨ a.did.1 = .readSink conn) {key}
    (secures : e.did.1 = .secure conn key) : e.pos < a.pos := by
  obtain ⟨r,bytes,link,alone,did,_,only⟩ := onlyFrame closed reach member secures
  obtain ⟨_,task,_⟩ := inPast alone
  refine Nat.lt_of_not_le fun early => ?_
  rcases Nat.lt_or_eq_of_le early with less | equal
  · obtain ⟨r',inside,task',less',received⟩ := takerReceived reach taken takes
    cases only r' inside (by omega) received
    have also : a ∈ w.past e := List.mem_filter.mpr ⟨taken,decide_eq_true ⟨task'.symm.trans task,less⟩⟩
    rw [alone] at also
    cases List.mem_singleton.mp also
    rw [did] at takes
    rcases takes with op | op <;> cases op
  · cases Machine.samePosition reach taken member equal
    rw [secures] at takes
    rcases takes with op | op <;> cases op

theorem agreedIff (closed : s.links = ∅) (reach : (machine lib expired name).Reach ok s w)
    {log : List (Event Op Resp Call Server)} (part : ∀ e ∈ log, e ∈ w.log) {key : Bytes} :
    agreed conn log = some key ↔ ∃ e ∈ log, e.did.1 = .secure conn key := by
  have secured : ∀ {o : Op} {key}, keyOn conn o = some key ↔ o = .secure conn key := by
    intro o key
    unfold keyOn
    split
    · simp only [Option.ite_none_right_eq_some,Option.some.injEq,Op.secure.injEq]
    · rename_i other
      exact ⟨nofun,fun same => absurd same (other conn key)⟩
  have found : ∀ {key}, agreed conn log = some key → ∃ e ∈ log, e.did.1 = .secure conn key := by
    intro key is
    obtain ⟨e,inside,hit⟩ := List.exists_of_findSome?_eq_some is
    exact ⟨e,inside,secured.mp hit⟩
  refine ⟨found,fun there => ?_⟩
  obtain ⟨e,inside,secures⟩ := there
  cases is : agreed conn log with
  | none =>
    have missed := List.findSome?_eq_none_iff.mp is e inside
    rw [secured.mpr secures] at missed
    cases missed
  | some key' =>
    obtain ⟨e',inside',secures'⟩ := found is
    cases agreedOnce closed reach (part e inside) (part e' inside') secures secures'
    rw [secures] at secures'
    cases secures'
    rfl

theorem heardOne {log : List (Event Op Resp Call Server)} (order : log.Pairwise fun e e' => e.pos < e'.pos) {r bytes}
    (member : r ∈ log) (received : frameOn conn r.did.1 = some bytes)
    (only : ∀ r' ∈ log, receives conn r'.did.1 = true → r' = r) : heard conn log = [bytes] := by
  have deaf : ∀ part : List (Event Op Resp Call Server), (∀ e ∈ part, e ∈ log ∧ e ≠ r) →
      (part.filterMap fun e => frameOn conn e.did.1) = [] := by
    intro part others
    refine List.filterMap_eq_nil_iff.mpr fun e inside => ?_
    obtain ⟨there,other⟩ := others e inside
    unfold frameOn
    split
    · rename_i conn' frame op
      refine if_neg fun same => other (only e there ?_)
      rw [op]
      exact decide_eq_true same
    · rfl
  obtain ⟨before,after,rfl⟩ := List.append_of_mem member
  obtain ⟨_,later,apart⟩ := List.pairwise_append.mp order
  rw [heard,List.filterMap_append,List.filterMap_cons,received,deaf before,deaf after]
  · rfl
  · intro e inside
    refine ⟨List.mem_append_right _ (List.mem_cons_of_mem _ inside),?_⟩
    rintro rfl
    exact Nat.lt_irrefl _ (List.rel_of_pairwise_cons later inside)
  · intro e inside
    refine ⟨List.mem_append_left _ inside,?_⟩
    rintro rfl
    exact Nat.lt_irrefl _ (apart e inside e List.mem_cons_self)

theorem firstFrame (closed : s.links = ∅) (reach : (machine lib expired name).Reach ok s w) {e} (member : e ∈ w.log) {key}
    (secures : e.did.1 = .secure conn key) : ∃ r ∈ w.log, ∃ bytes link, r.task = e.task ∧ r.pos < e.pos ∧
      r.did = ⟨.receive conn (some bytes),some link⟩ ∧ treat lib link bytes = .exchange key ∧
      heard conn (w.earlier e) = [bytes] := by
  obtain ⟨r,bytes,link,alone,did,agrees,only⟩ := onlyFrame closed reach member secures
  obtain ⟨inside,task,less⟩ := inPast alone
  refine ⟨r,inside,bytes,link,task,less,did,agrees,?_⟩
  refine heardOne ((Machine.increasing reach).sublist List.filter_sublist)
    (List.mem_filter.mpr ⟨inside,decide_eq_true less⟩) (by rw [did]; exact if_pos rfl) fun r' there received => ?_
  obtain ⟨inside',less'⟩ := List.mem_filter.mp there
  exact only r' inside' (of_decide_eq_true less') received

theorem heardAny {log : List (Event Op Resp Call Server)} {r} (member : r ∈ log) {bytes}
    (received : r.did.1 = .receive conn (some bytes)) : heard conn log ≠ [] := by
  refine List.ne_nil_of_mem (List.mem_filterMap.mpr ⟨r,member,?_⟩ : bytes ∈ heard conn log)
  rw [received]
  exact if_pos rfl

/- The sink that a connection has once a key is agreed on, or has not been. -/
def streamOf (conn : Conn) (enc : Option Bytes) : Sink := if conn.ws then .ws conn else .tcpStream conn enc

/- What a task keeps between two frames, by the key agreed on and the frames received. -/
structure Fits (conn : Conn) (enc : Option Bytes) (frames : List Bytes) (link : Link) : Prop where
  dec : link.dec = enc.map fun key => (key,frames.tail)
  sink : ∀ sink, link.sink = some sink → sink = streamOf conn enc

section CipherStep
variable {i : Nat} {c : Call} {o : Op} {next : Resp o → Prog Op Resp Unit}

theorem agreedStep : agreed conn ((machine lib expired name).performed w i c o next).log =
    (agreed conn w.log).or (keyOn conn o) := by
  cases keys : keyOn conn o <;> simp [agreed,Machine.performed,Machine.happening,keys]

theorem heardStep : heard conn ((machine lib expired name).performed w i c o next).log =
    heard conn w.log ++ (frameOn conn o).toList := by
  cases frames : frameOn conn o <;> simp [heard,Machine.performed,Machine.happening,frames]

/- Nothing was agreed on a connection that is about to be accepted, or that has heard nothing yet. -/
theorem agreedHeard (closed : s.links = ∅) (reach : (machine lib expired name).Reach ok s w) {key}
    (agrees : agreed conn w.log = some key) : ∃ r ∈ w.log, ∃ bytes, r.did.1 = .receive conn (some bytes) := by
  obtain ⟨e,member,secures⟩ := (agreedIff closed reach fun _ => id).mp agrees
  obtain ⟨r,inside,bytes,link,_,_,did,_⟩ := firstFrame closed reach member secures
  exact ⟨r,inside,bytes,by rw [did]⟩

theorem agreedNew (closed : s.links = ∅) (reach : (machine lib expired name).Reach ok s w)
    (new : conn ∉ w.shared.accepted) : agreed conn w.log = none := by
  cases agrees : agreed conn w.log with
  | none => rfl
  | some key =>
    obtain ⟨r,inside,bytes,received⟩ := agreedHeard closed reach agrees
    refine absurd ((runFooting closed reach).known r inside conn ?_) new
    rw [received]
    exact decide_eq_true rfl

theorem fitsStep (closed : s.links = ∅) (reach : (machine lib expired name).Reach ok s w) (meets : ok w (.advance i))
    (found : w.tasks[i]? = some ⟨c,.op o next,true⟩) (ready : ready o w.shared = true)
    (ih : ∀ link, w.shared.links.lookup conn = some link → Fits conn (agreed conn w.log) (heard conn w.log) link) {link}
    (here : linkAfter conn (w.shared.links.lookup conn) o = some link) :
    Fits conn ((agreed conn w.log).or (keyOn conn o)) (heard conn w.log ++ (frameOn conn o).toList) link := by
  have due := dueNext reach found
  have same : keyOn conn o = none → frameOn conn o = none → Fits conn (agreed conn w.log) (heard conn w.log) link →
      Fits conn ((agreed conn w.log).or (keyOn conn o)) (heard conn w.log ++ (frameOn conn o).toList) link := by
    intro nokey noframe fits
    rw [nokey,noframe,Option.or_none,Option.toList_none,List.append_nil]
    exact fits
  cases o with
  | connect conn' config =>
    simp only [linkAfter] at here
    split at here
    · rename_i equal
      subst equal
      cases Option.some.inj here
      rw [agreedNew closed reach (of_decide_eq_true ready)]
      exact ⟨rfl,fun sink inside => (Option.some.inj inside).symm⟩
    · exact same rfl rfl (ih link here)
  | receive conn' frame =>
    simp only [linkAfter] at here
    split at here
    · rename_i equal
      subst equal
      obtain ⟨old,had,rfl⟩ := Option.map_eq_some_iff.mp here
      have noframe : frameOn conn (.receive conn frame) = frame := if_pos rfl
      simp only [noframe,keyOn,Option.or_none]
      refine ⟨?_,(ih old had).sink⟩
      rw [(ih old had).dec]
      cases agrees : agreed conn w.log with
      | none => rfl
      | some key =>
        obtain ⟨r,inside,bytes,received⟩ := agreedHeard closed reach agrees
        simp only [Option.map_some,List.tail_append_of_ne_nil (heardAny inside received)]
    · rename_i other
      exact same rfl (if_neg fun equal => other equal.symm) (ih link here)
  | secure conn' key =>
    simp only [linkAfter] at here
    split at here
    · rename_i equal
      subst equal
      obtain ⟨old,had,rfl⟩ := Option.map_eq_some_iff.mp here
      have fresh : agreed conn w.log = none := by
        obtain ⟨bytes,draws,link',_,dids,agrees⟩ := due
        have found := (runFooting closed reach).hearing _ _ _ _ dids
        rw [had,linkAfter,if_pos rfl] at found
        have undecided : old.dec = none := by
          cases Option.some.inj found
          simp only [(exchangeOffer agrees).1,Option.map_none]
        rw [(ih old had).dec] at undecided
        exact Option.map_eq_none_iff.mp undecided
      obtain ⟨_,_,bytes,_,_,_,_,_,alone⟩ := firstFrame closed (Machine.reachPerformed reach meets found ready)
        Machine.happened rfl
      rw [Machine.earlierNew reach] at alone
      have key' : keyOn conn (.secure conn key) = some key := if_pos rfl
      rw [fresh,key',alone]
      refine ⟨rfl,fun sink inside => ?_⟩
      obtain ⟨sink',was,rfl⟩ := Option.map_eq_some_iff.mp inside
      rw [(ih old had).sink sink' was,fresh,streamOf,streamOf]
      split <;> rfl
    · rename_i other
      exact same (if_neg fun equal => other equal.symm) rfl (ih link here)
  | disconnect conn' =>
    simp only [linkAfter] at here
    split at here
    · cases here
    · exact same rfl rfl (ih link here)
  | offerKey conn' secret =>
    simp only [linkAfter] at here
    split at here
    · obtain ⟨old,had,rfl⟩ := Option.map_eq_some_iff.mp here
      exact same rfl rfl ⟨(ih old had).dec,(ih old had).sink⟩
    · exact same rfl rfl (ih link here)
  | takeSink conn' =>
    simp only [linkAfter] at here
    split at here
    · obtain ⟨old,had,rfl⟩ := Option.map_eq_some_iff.mp here
      exact same rfl rfl ⟨(ih old had).dec,fun sink inside => Option.some_ne_none sink inside.symm |>.elim⟩
    · exact same rfl rfl (ih link here)
  | _ => exact same rfl rfl (ih link here)

end CipherStep

theorem runFits (closed : s.links = ∅) (reach : (machine lib expired name).Reach ok s w) :
    ∀ conn link, w.shared.links.lookup conn = some link → Fits conn (agreed conn w.log) (heard conn w.log) link := by
  refine Machine.invariant (I := fun w => ∀ conn link, w.shared.links.lookup conn = some link →
    Fits conn (agreed conn w.log) (heard conn w.log) link) ?_ ?_ ?_ ?_ reach
  · intro conn link found
    rw [Machine.initial,closed] at found
    cases found
  · intro w c _ _ ih
    exact ih
  · intro w i c o next before meets found ready ih conn link here
    simp only [Machine.performed,machine,execLink] at here
    rw [agreedStep,heardStep]
    exact fitsStep closed before meets found ready (ih conn) here
  · intro w e _ _ ih conn link found
    exact ih conn link (by cases e <;> exact found)

/- A sink that was taken or read was in the state that the history says. -/
theorem takenSink (closed : s.links = ∅) (reach : (machine lib expired name).Reach ok s w) {a} (member : a ∈ w.log) {sink}
    (taken : a.did = ⟨.takeSink conn,some sink⟩ ∨ a.did = ⟨.readSink conn,some sink⟩) :
    sink = streamOf conn (agreed conn (w.earlier a)) := by
  obtain ⟨v,reached,_,same,history,_⟩ := Machine.moment reach member
  obtain ⟨link,found,inside⟩ := takenKept reach member taken
  rw [← same] at found
  rw [← Machine.momentLog reach reached history]
  exact (runFits closed reached conn link found).sink sink inside

/- and stays in it. -/
theorem agreedSince (closed : s.links = ∅) (reach : (machine lib expired name).Reach ok s w) {a e} (member : a ∈ w.log)
    (takes : a.did.1 = .takeSink conn ∨ a.did.1 = .readSink conn) (later : a.pos < e.pos) :
    agreed conn (w.earlier e) = agreed conn (w.earlier a) := by
  have part : ∀ e : Event Op Resp Call Server, ∀ d ∈ w.earlier e, d ∈ w.log := fun e d inside => (List.mem_filter.mp inside).1
  refine Option.ext fun key => ?_
  rw [agreedIff closed reach (part e),agreedIff closed reach (part a)]
  constructor
  · rintro ⟨d,inside,secures⟩
    have there := part e d inside
    exact ⟨d,List.mem_filter.mpr ⟨there,decide_eq_true (takenLater closed reach member there takes secures)⟩,secures⟩
  · rintro ⟨d,inside,secures⟩
    have less := of_decide_eq_true (List.mem_filter.mp inside).2
    exact ⟨d,List.mem_filter.mpr ⟨part a d inside,decide_eq_true (by omega)⟩,secures⟩

theorem sentSink (closed : s.links = ∅) (none : s.tcpPunch = ∅ ∧ s.tcpPeers = ∅)
    (reach : (machine lib expired name).Reach ok s w) {e} (member : e ∈ w.log) {sink m}
    (sends : e.did.1 = .send (.sink sink) m) (mine : owner sink = some conn) :
    sink = streamOf conn (agreed conn (w.earlier e)) ∨ ∃ secret publicKey config,
      e.call = .accept conn secret publicKey ∧ sink = .tcpStream conn .none ∧
      ((w.past e).map Event.did).getLast? = some ⟨.connect conn config,()⟩ := by
  have live : sink ≠ .closed := by
    intro same
    rw [same] at mine
    cases mine
  have since : ∀ {a}, a ∈ w.log → a.pos < e.pos →
      a.did = ⟨.takeSink conn,some sink⟩ ∨ a.did = ⟨.readSink conn,some sink⟩ →
      sink = streamOf conn (agreed conn (w.earlier e)) := by
    intro a inside less taken
    have takes : a.did.1 = .takeSink conn ∨ a.did.1 = .readSink conn :=
      taken.imp (fun did => by rw [did]) fun did => by rw [did]
    rw [agreedSince closed reach inside takes less]
    exact takenSink closed reach inside taken
  have found : ∀ {b key}, b ∈ w.log → b.pos < e.pos →
      b.did = ⟨.punchRemove key,some sink⟩ ∨ b.did = ⟨.peersTake key,some sink⟩ →
      sink = streamOf conn (agreed conn (w.earlier e)) := by
    intro b key inside less looked
    obtain ⟨a,there,before,conn',did,_⟩ := lookedUp none reach inside looked live
    cases Option.some.inj (mine.symm.trans (takenSinkOwn closed reach there (.inl did)))
    exact since there (by omega) (.inl did)
  have due := dueEvent reach member
  rw [sends] at due
  obtain ⟨conn',secret,publicKey,config,accepts,rfl,last⟩ | ⟨conn',_,last⟩ | ⟨key,last⟩ | ⟨key,_,last⟩ := due
  · cases Option.some.inj mine
    exact .inr ⟨secret,publicKey,config,accepts,rfl,last⟩
  · obtain ⟨a,inside,_,less,did⟩ := Machine.lastDid last
    cases Option.some.inj (mine.symm.trans (takenSinkOwn closed reach inside (.inr did)))
    exact .inl (since inside less (.inr did))
  · obtain ⟨a,inside,_,less,did⟩ := Machine.lastDid last
    exact .inl (found inside less (.inl did))
  · obtain ⟨a,inside,_,less,did⟩ := Machine.lastDid last
    exact .inl (found inside less (.inr did))

/- What the task of a frame found: the state that the history says, and no offer after the first frame. -/
theorem foundLink (closed : s.links = ∅) (reach : (machine lib expired name).Reach ok s w) {r} (member : r ∈ w.log) {link}
    (received : r.did = ⟨.receive conn frame,some link⟩) : Fits conn (agreed conn (w.earlier r)) (heard conn (w.earlier r)) link ∧
      ∀ r' ∈ w.log, r'.pos < r.pos → ∀ frame' link', r'.did = ⟨.receive conn frame',some link'⟩ →
        link.offer = none ∧ leaves lib link' frame' = false := by
  obtain ⟨v,reached,_,same,history,_,ready,_⟩ := Machine.moment reach member
  rw [received] at ready
  have here : v.shared.links.lookup conn = some link := by
    rw [same]
    exact (Machine.responseIs reach member received).symm
  refine ⟨?_,fun r' member' less frame' link' received' => ?_⟩
  · rw [← Machine.momentLog reach reached history]
    exact runFits closed reached conn link here
  · rcases (runFooting closed reached).fates r' ((history r').mpr ⟨member',less⟩) conn frame' link' received' with serving | fate
    · have busy := ((runOrderly closed reached).present _ conn serving).2
      rw [same] at busy
      exact absurd busy (of_decide_eq_true (Bool.and_eq_true_iff.mp ready).2)
    · exact fate link here

theorem acceptUnheard (closed : s.links = ∅) (reach : (machine lib expired name).Reach ok s w) {e} (member : e ∈ w.log)
    {secret publicKey config} (accepts : e.call = .accept conn secret publicKey)
    (last : ((w.past e).map Event.did).getLast? = some ⟨.connect conn config,()⟩) : agreed conn (w.earlier e) = none := by
  obtain ⟨v,reached,_,past,history,next,found⟩ := Machine.momentPast reach member
  have quietly := (everyOnPath (Machine.taskPath reached found) (accepts ▸ acceptQuiet name secret publicKey)).1
  have serving : Serving v e.task conn := by
    refine servingNext found ⟨by rw [accepts]; rfl,?_⟩
    obtain ⟨before,split⟩ := List.getLast?_eq_some_iff.mp last
    rw [past,split,servesLast]
    rfl
  have nothing := (runFooting closed reached).unheard _ conn serving fun d done => ?_
  · cases agrees : agreed conn (w.earlier e) with
    | none => rfl
    | some key =>
      rw [← history] at agrees
      obtain ⟨r,inside,bytes,received⟩ := agreedHeard closed reached agrees
      have silent := nothing r inside
      rw [received,receives,decide_eq_true rfl] at silent
      cases silent
  · refine Bool.eq_false_iff.mpr fun received => ?_
    obtain ⟨frame,op⟩ := receivesIs received
    have silent := quietly d done
    rw [op] at silent
    cases silent

end Runs

section Claim
variable {lib : Library} {expired : Nat → Nat} {name : String} {ok : World → Act Call Env → Prop}
variable {accounts : AccountStore.Store} {peers : PeerRegistry.Registry} {config : Config} {w : World} {conn : Conn}

theorem secured (tcp : conn.ws = false) (reach : (machine lib expired name).Reach ok (.init accounts peers config) w) :
    Secured lib name w conn := by
  have handed : ∀ r ∈ w.log, ∀ frame link, r.did = ⟨.receive conn (some frame),some link⟩ →
      ∃ draws, r.call = .tcp conn frame draws ∧ Continues w r (serve lib name conn frame draws link) := by
    intro r member frame link received
    have reads := readerCall reach member (by rw [received])
    have goes := continues reach member received
    cases call : r.call with
    | tcp conn' frame' draws =>
      rw [call] at reads goes
      cases Option.some.inj reads
      exact ⟨draws,rfl,goes⟩
    | close conn' =>
      rw [call] at reads
      cases Option.some.inj reads
    | _ =>
      rw [call] at reads
      cases reads
  refine {
    once := fun e member e' member' key key' secures secures' => agreedOnce rfl reach member member' secures secures'
    first := fun e member key secures => ?_
    handed := handed
    decrypted := fun r member frame link key received agrees => ?_
    clear := fun r member frame link received agrees some => ?_
    unsecured := fun r member frame link received unheard different => ?_
    written := fun e member sink m sends mine => ?_
    ended := fun r member frame link received refused => ⟨?_,fun r' member' received' => ?_⟩ }
  · obtain ⟨r,inside,bytes,link,task,less,did,agrees,alone⟩ := firstFrame rfl reach member secures
    obtain ⟨_,secret,keys,rest⟩ := exchangeOffer agrees
    exact ⟨r,inside,bytes,link,secret,keys,task,less,did,alone,rest⟩
  · have dec := (foundLink rfl reach member received).1.dec
    rw [agrees] at dec
    rw [treat,dec]
    rfl
  · obtain ⟨fits,earlier⟩ := foundLink rfl reach member received
    have dec := fits.dec
    rw [agrees] at dec
    obtain ⟨bytes,there⟩ := List.exists_mem_of_ne_nil _ some
    obtain ⟨r',inside,received'⟩ := List.mem_filterMap.mp there
    obtain ⟨member',less⟩ := List.mem_filter.mp inside
    obtain ⟨frame',link',did'⟩ := frameLink reach member' (frameReceives received')
    have silent := (earlier r' member' (of_decide_eq_true less) frame' link' did').1
    rw [treat,dec,silent]
    rfl
  · cases agrees : agreed conn w.log with
    | none => rfl
    | some key =>
      obtain ⟨e,there,secures⟩ := (agreedIff rfl reach fun _ => id).mp agrees
      obtain ⟨r',bytes,link',alone,did',agrees',only⟩ := onlyFrame rfl reach there secures
      obtain ⟨inside',_,less'⟩ := inPast alone
      rcases Nat.lt_or_ge r.pos e.pos with less | more
      · cases only r member less (by rw [received]; exact decide_eq_true rfl)
        rw [received] at did'
        cases did'
        exact absurd agrees' (different key)
      · have before : r' ∈ w.earlier r := List.mem_filter.mpr ⟨inside',decide_eq_true (by omega)⟩
        exact absurd unheard (heardAny before (by rw [did']))
  · have plain : streamOf conn (agreed conn (w.earlier e)) = .tcpStream conn (agreed conn (w.earlier e)) := by
      rw [streamOf,tcp]
      rfl
    rcases sentSink rfl ⟨rfl,rfl⟩ reach member sends mine with same | ⟨secret,publicKey,config,accepts,same,last⟩
    · rw [same,plain]
    · rw [same,acceptUnheard rfl reach member accepts last]
  · obtain ⟨draws,_,goes⟩ := handed r member frame link received
    rw [serve,refused] at goes
    exact goes
  · refine Nat.le_of_not_lt fun later => ?_
    obtain ⟨frame',link',did'⟩ := frameLink reach member' received'
    have stays := ((foundLink rfl reach member' did').2 r member later _ _ received).2
    rw [leaves,refused] at stays
    cases stays

end Claim

/- A client accepts the offer and asks, under the key, for a peer that does not exist. -/
def secretConn : Conn := ⟨0,⟨.v4 198 51 100 2,4000⟩,false⟩

def requestOf : Bytes → Option Message
  | [9] => some (.keyExchange [[5],[7]])
  | [1] => some (.punchHoleRequest ⟨"100000003",.asymmetric,"",controllerToken.text⟩)
  | _ => none

def signingServer : Server :=
  .init signedIn (.init bootInstant .empty) { oneServer with inner := { oneServer.inner with sk := some [3] } }

def drawn : Draws := calm AccountCalls.mintedB

def secureActs : List (Act Call Env) :=
  [.start (.accept secretConn [4] [5])] ++ advances 0 6 ++ [.start (.tcp secretConn [9] drawn)] ++ advances 1 3 ++
    [.start (.tcp secretConn [7,1] drawn)] ++ advances 2 9

def encryptedAnswer : Op → Bool
  | .send (.sink sink) (.punchHoleResponse _) => sink = .tcpStream secretConn (some [7])
  | _ => false

theorem answerEncrypted : ∃ w, (machine (plainLibrary requestOf) hourAgo "").Reach (fun _ _ => True) signingServer w ∧
    (∃ e ∈ w.log, encryptedAnswer e.did.1 = true) ∧ Secured (plainLibrary requestOf) "" w secretConn := by
  obtain ⟨w,reach,shown⟩ := Machine.reachWith (fun _ _ => True) (fun _ _ => true) (fun _ _ _ => trivial) secureActs
    (m := machine (plainLibrary requestOf) hourAgo "") (s := signingServer)
    (P := fun w => w.log.any fun e => encryptedAnswer e.did.1) (by decide +kernel)
  exact ⟨w,reach,List.any_eq_true.mp shown,secured rfl reach⟩

end OpenuuServer.SecureConnections
