import OpenuuServer.RendezvousService

/-! The keys of `tcp_punch` and `tcp_peers`: the address a connection comes from, as `try_into_v4`
gives it. Over WebSocket the address is what a reverse proxy says, with port 0, so that two
clients behind one NAT have the same key. -/
namespace OpenuuServer.ConnectionKeys
open AtomicProgram RendezvousMessages RendezvousServer RendezvousService
open PeerRegistry (Bytes SocketAddr)

def Open (s : Server) (conn : Conn) : Prop := (s.links.lookup conn).isSome = true

/- The operations that store or remove the sink of the connection they run for. -/
def stores (done : List (Did Op Resp)) : Op → Bool
  | .punchInsert _ _ | .peersInsert _ _ | .peersRemove _ => true
  | .punchRemove _ => parting done
  | _ => false

/- The address for which the sink was looked up that a message is about to be written to. -/
def meant (done : List (Did Op Resp)) : Option SocketAddr :=
  match done.getLast? with
  | some ⟨.punchRemove key,some _⟩ | some ⟨.peersTake key,some _⟩ => some key
  | _ => none

section Definitions
variable (lib : Library) (expired : Nat → Nat) (w : World)

def keyOf (conn : Conn) : SocketAddr := lib.tryIntoV4 conn.addr

/- Two open connections share no entry; what is stored or removed for one leaves the entries of
the others alone; and no message looked up for the address of one is written to another. -/
structure Isolated : Prop where
  unshared : ∀ key sink conn, w.shared.tcpPunch.lookup key = some sink ∨ w.shared.tcpPeers.lookup key = some sink →
    owner sink = some conn → Open w.shared conn → ∀ other, Open w.shared other → keyOf lib other = key → other = conn
  untouched : ∀ e ∈ w.log, ∀ conn, behalf e.call = some conn → stores ((w.past e).map Event.did) e.did.1 = true →
    ∀ other, Open e.before other → other ≠ conn →
      (exec lib expired e.did.1 e.before).2.tcpPunch.lookup (keyOf lib other) = e.before.tcpPunch.lookup (keyOf lib other) ∧
      (exec lib expired e.did.1 e.before).2.tcpPeers.lookup (keyOf lib other) = e.before.tcpPeers.lookup (keyOf lib other)
  written : ∀ e ∈ w.log, ∀ sink m conn, e.did.1 = .send (.sink sink) m → owner sink = some conn →
    (∀ key, meant ((w.past e).map Event.did) = some key → keyOf lib conn = key ∧
      (Open e.before conn → ∀ other, Open e.before other → keyOf lib other = key → other = conn)) ∧
    (meant ((w.past e).map Event.did) = none → behalf e.call = some conn)

end Definitions

section Runs
variable {lib : Library} {expired : Nat → Nat} {name : String} {ok : World → Act Call Env → Prop} {s : Server} {w : World}

/- A sink that is stored belongs to a connection with that key. -/
theorem storedKeyed (closed : s.links = ∅) (none : s.tcpPunch = ∅ ∧ s.tcpPeers = ∅)
    (reach : (machine lib expired name).Reach ok s w) {key sink conn}
    (entry : w.shared.tcpPunch.lookup key = some sink ∨ w.shared.tcpPeers.lookup key = some sink)
    (mine : owner sink = some conn) : keyOf lib conn = key := by
  have origins := runOrigins none reach
  have origin : Origin lib w key sink := by
    rcases entry with found | found
    · exact origins.punch key sink found
    · refine (origins.peers key sink found).resolve_left fun same => ?_
      rw [same] at mine
      cases mine
  obtain ⟨a,inside,conn',did,rfl⟩ := origin
  cases Option.some.inj (mine.symm.trans (takenSinkOwn closed reach inside (.inl did)))
  rfl

/- Open connections have different keys. -/
theorem runDistinct (distinct : ∀ w a, ok w a → Distinct lib w a) (closed : s.links = ∅)
    (reach : (machine lib expired name).Reach ok s w) :
    ∀ conn other, Open w.shared conn → Open w.shared other → keyOf lib other = keyOf lib conn → other = conn := by
  refine Machine.invariant (I := fun w => ∀ conn other, Open w.shared conn → Open w.shared other →
    keyOf lib other = keyOf lib conn → other = conn) ?_ ?_ ?_ ?_ reach
  · intro conn other here
    rw [Open,Machine.initial,closed] at here
    cases here
  · intro w c _ _ ih; exact ih
  · intro w i c o next before meets found _ ih conn other here there same
    have apart : ∀ conn' config, o = .connect conn' config → ∀ old, Open w.shared old → keyOf lib old ≠ keyOf lib conn' := by
      rintro conn' config rfl old present
      refine distinct _ _ meets conn' ?_ old (AList.mem_keys.mpr (AList.lookup_isSome.mp present))
      rw [connecting,nextIs found]
      rfl
    simp only [Open,Machine.performed,machine,execLink,openAfter] at here there
    rcases here with ⟨here,_⟩ | ⟨config,rfl⟩
    · rcases there with ⟨there,_⟩ | ⟨config,rfl⟩
      · exact ih conn other here there same
      · exact absurd same.symm (apart other config rfl conn here)
    · rcases there with ⟨there,_⟩ | ⟨config',again⟩
      · exact absurd same (apart conn config rfl other there)
      · injection again with again
        exact again.symm
  · intro w e _ _ ih conn other here there
    exact ih conn other (by cases e <;> exact here) (by cases e <;> exact there)

/- What is stored or removed on behalf of a connection is so under its own key, while it is open. -/
theorem storesOwn (closed : s.links = ∅) (reach : (machine lib expired name).Reach ok s w) {e} (member : e ∈ w.log) {conn}
    (mine : behalf e.call = some conn) (acts : stores ((w.past e).map Event.did) e.did.1 = true) :
    Open e.before conn ∧ ∀ key, key ≠ keyOf lib conn →
      punchAfter key (e.before.tcpPunch.lookup key) e.did.1 = e.before.tcpPunch.lookup key ∧
      peerAfter key (e.before.tcpPeers.lookup key) e.did.1 = e.before.tcpPeers.lookup key := by
  obtain ⟨v,reached,shared,past,_,next,found⟩ := Machine.momentPast reach member
  have due := dueNext reached found
  rw [← past] at acts
  have serving : Serves e.call (v.didsOf e.task) conn → Open e.before conn := by
    intro serves
    rw [← shared]
    exact ((runOrderly closed reached).present e.task conn (servingNext found serves)).1
  generalize e.did.1 = o at due acts
  cases o with
  | punchInsert key sink =>
    obtain ⟨conn',serves,rfl,_⟩ := due
    cases Option.some.inj (mine.symm.trans serves.1)
    exact ⟨serving serves,fun key other => ⟨if_neg other,rfl⟩⟩
  | peersInsert key sink =>
    obtain ⟨conn',serves,rfl,_⟩ := due
    cases Option.some.inj (mine.symm.trans serves.1)
    exact ⟨serving serves,fun key other => ⟨rfl,if_neg other⟩⟩
  | peersRemove key =>
    obtain ⟨conn',serves,rfl⟩ := due
    cases Option.some.inj (mine.symm.trans serves.1)
    exact ⟨serving serves,fun key other => ⟨rfl,if_neg other⟩⟩
  | punchRemove key =>
    obtain ⟨conn',serves,rfl⟩ := due acts
    cases Option.some.inj (mine.symm.trans serves.1)
    exact ⟨serving serves,fun key other => ⟨if_neg other,rfl⟩⟩
  | _ => cases acts

theorem lookedKeyed (closed : s.links = ∅) (none : s.tcpPunch = ∅ ∧ s.tcpPeers = ∅)
    (reach : (machine lib expired name).Reach ok s w) {e} (member : e ∈ w.log) {key sink conn}
    (found : e.did = ⟨.punchRemove key,some sink⟩ ∨ e.did = ⟨.peersTake key,some sink⟩) (mine : owner sink = some conn) :
    keyOf lib conn = key := by
  have live : sink ≠ .closed := by
    intro same
    rw [same] at mine
    cases mine
  obtain ⟨a,inside,_,conn',did,rfl⟩ := lookedUp none reach member found live
  cases Option.some.inj (mine.symm.trans (takenSinkOwn closed reach inside (.inl did)))
  rfl

end Runs

section Claim
variable {lib : Library} {expired : Nat → Nat} {name : String} {accounts : AccountStore.Store}
variable {peers : PeerRegistry.Registry} {config : Config} {w : World}

/- As long as no connection is accepted whose key an open one has, connections do not get in
one another's way. -/
theorem isolatedUnlessKeyShared (reach : (machine lib expired name).Reach (Distinct lib) (.init accounts peers config) w) :
    Isolated lib expired w := by
  have distinct := runDistinct (fun _ _ h => h) rfl reach
  have due : ∀ e ∈ w.log, ∀ sink m, e.did.1 = .send (.sink sink) m →
      Written e.call ((w.past e).map Event.did) sink := by
    intro e member sink m sends
    have due := dueEvent reach member
    rw [sends] at due
    exact due
  refine ⟨fun key sink conn entry mine here other there same => ?_,fun e member conn mine acts other there apart => ?_,
    fun e member sink m conn sends mine => ⟨fun key looked => ?_,fun unlooked => ?_⟩⟩
  · refine distinct conn other here there (same.trans ?_)
    exact (storedKeyed rfl ⟨rfl,rfl⟩ reach entry mine).symm
  · obtain ⟨here,frame⟩ := storesOwn rfl reach member mine acts
    obtain ⟨v,reached,shared,_⟩ := Machine.momentPast reach member
    have differ : keyOf lib other ≠ keyOf lib conn := by
      intro same
      rw [← shared] at here there
      exact apart (runDistinct (fun _ _ h => h) rfl reached conn other here there same)
    simp only [execPunch,execPeer]
    exact frame _ differ
  · have own : keyOf lib conn = key := by
      obtain ⟨_,_,_,_,_,_,last⟩ | ⟨_,_,last⟩ | ⟨key',last⟩ | ⟨key',_,last⟩ := due e member sink m sends
      · rw [meant,last] at looked
        cases looked
      · rw [meant,last] at looked
        cases looked
      · rw [meant,last] at looked
        cases Option.some.inj looked
        obtain ⟨a,inside,_,_,did⟩ := Machine.lastDid last
        exact lookedKeyed rfl ⟨rfl,rfl⟩ reach inside (.inl did) mine
      · rw [meant,last] at looked
        cases Option.some.inj looked
        obtain ⟨a,inside,_,_,did⟩ := Machine.lastDid last
        exact lookedKeyed rfl ⟨rfl,rfl⟩ reach inside (.inr did) mine
    refine ⟨own,fun here other there same => ?_⟩
    obtain ⟨v,reached,shared,_⟩ := Machine.momentPast reach member
    rw [← shared] at here there
    exact runDistinct (fun _ _ h => h) rfl reached conn other here there (same.trans own.symm)
  · obtain ⟨_,_,_,_,called,rfl,_⟩ | ⟨_,serves,last⟩ | ⟨_,last⟩ | ⟨_,_,last⟩ := due e member sink m sends
    · rw [called,behalf]
      exact mine
    · obtain ⟨a,inside,_,_,did⟩ := Machine.lastDid last
      cases Option.some.inj (mine.symm.trans (takenSinkOwn rfl reach inside (.inr did)))
      exact serves.1
    · rw [meant,last] at unlooked
      cases unlooked
    · rw [meant,last] at unlooked
      cases unlooked

end Claim
/- Two clients behind one NAT: the reverse proxy names the same address for both. -/
def natAddr : SocketAddr := ⟨.v4 198 51 100 2,0⟩

def oneConn : Conn := ⟨0,natAddr,true⟩

def otherConn : Conn := ⟨1,natAddr,true⟩

def requestOf : Bytes → Option Message
  | [1] => some (.punchHoleRequest ⟨"100000003",.asymmetric,"",controllerToken.text⟩)
  | _ => none

def signedInServer : Server := .init signedIn (.init bootInstant .empty) oneServer

def drawn : Draws := calm AccountCalls.mintedB

/- Each asks for a peer that does not exist. The answer to the first is looked up when the second
has stored its sink under the same key. -/
def sharedActs : List (Act Call Env) :=
  [.start (.accept oneConn [] [])] ++ advances 0 4 ++ [.start (.accept otherConn [] [])] ++ advances 1 4 ++
    [.start (.tcp oneConn [1] drawn)] ++ advances 2 4 ++ [.start (.tcp otherConn [1] drawn)] ++ advances 3 4 ++ advances 2 5

def writesTo (conn : Conn) : Op → Bool
  | .send (.sink sink) _ => owner sink = some conn
  | _ => false

theorem answerToOtherClient : ∃ w, (machine (plainLibrary requestOf) hourAgo "").Reach (fun _ _ => True) signedInServer w ∧
    (∃ e ∈ w.log, behalf e.call = some oneConn ∧ writesTo otherConn e.did.1 = true ∧
      Open e.before oneConn ∧ Open e.before otherConn) ∧ ¬ Isolated (plainLibrary requestOf) hourAgo w := by
  obtain ⟨w,reach,shown⟩ := Machine.reachWith (fun _ _ => True) (fun _ _ => true) (fun _ _ _ => trivial) sharedActs
    (m := machine (plainLibrary requestOf) hourAgo "") (s := signedInServer)
    (P := fun w => w.log.any fun e => decide (behalf e.call = some oneConn) && writesTo otherConn e.did.1 &&
      (e.before.links.lookup oneConn).isSome && (e.before.links.lookup otherConn).isSome &&
      decide (meant ((w.past e).map Event.did) = some natAddr)) (by decide +kernel)
  simp only [List.any_eq_true,Bool.and_eq_true,decide_eq_true_eq] at shown
  obtain ⟨e,member,⟨⟨⟨mine,writes⟩,here⟩,there⟩,looked⟩ := shown
  refine ⟨w,reach,⟨e,member,mine,writes,here,there⟩,fun isolated => ?_⟩
  unfold writesTo at writes
  split at writes
  · rename_i sink m sends
    obtain ⟨_,alone⟩ := (isolated.written e member sink m otherConn sends (of_decide_eq_true writes)).1 natAddr looked
    cases alone there oneConn here rfl
  · cases writes

/- One of the clients comes over TCP, from a port of its own. -/
def portConn : Conn := ⟨1,⟨.v4 198 51 100 2,4000⟩,false⟩

def apartActs : List (Act Call Env) :=
  [.start (.accept oneConn [] [])] ++ advances 0 4 ++ [.start (.accept portConn [] [])] ++ advances 1 4 ++
    [.start (.tcp oneConn [1] drawn)] ++ advances 2 4 ++ [.start (.tcp portConn [1] drawn)] ++ advances 3 4 ++ advances 2 5

theorem answerToOwnClient : ∃ w,
    (machine (plainLibrary requestOf) hourAgo "").Reach (Distinct (plainLibrary requestOf)) signedInServer w ∧
    (∃ e ∈ w.log, behalf e.call = some oneConn ∧ writesTo oneConn e.did.1 = true ∧ Open e.before portConn) ∧
    Isolated (plainLibrary requestOf) hourAgo w := by
  obtain ⟨w,reach,shown⟩ := Machine.reachWith (Distinct (plainLibrary requestOf))
    (fun w a => decide (Distinct (plainLibrary requestOf) w a)) (fun _ _ => of_decide_eq_true) apartActs
    (m := machine (plainLibrary requestOf) hourAgo "") (s := signedInServer)
    (P := fun w => w.log.any fun e => decide (behalf e.call = some oneConn) && writesTo oneConn e.did.1 &&
      (e.before.links.lookup portConn).isSome) (by decide +kernel)
  simp only [List.any_eq_true,Bool.and_eq_true,decide_eq_true_eq] at shown
  obtain ⟨e,member,⟨mine,writes⟩,here⟩ := shown
  exact ⟨w,reach,⟨e,member,mine,writes,here⟩,isolatedUnlessKeyShared reach⟩

end OpenuuServer.ConnectionKeys
