import OpenuuServer.DatagramTargets
import OpenuuServer.PeerProvenance

/-! The keys that hbbs hands to those who want to talk to a peer. What it signs for an id is a key that was
registered for that id, in this run or in a row the run began with; it signs nothing else, whatever the
peers themselves send along. -/
namespace OpenuuServer.KeySignatures
open AtomicProgram HistoryFolds UniqueTable RendezvousMessages RendezvousServer RendezvousPrograms RendezvousRuns
open HandlerAuthority (Handles handlesOf sourceNamed)
open PeerProvenance
open PeerRegistry (Bytes SocketAddr LockPeer Registry PeerRow RegisterPk)

/- The key was registered for the id: there is none yet, an accepted RegisterPk for the id has carried it, or
the table held it from the start. -/
inductive RegisteredKey (lib : Library) (s : Server) (w : World) (e : Event Op Resp Call Server) (id : String) (pk : Bytes) :
    Prop where
  | absent (none : pk = [])
  | message {a peer addr rk} (inside : a ∈ w.log) (less : a.pos < e.pos) (accepted : Accepted lib w a peer addr rk)
      (names : rk.id = id) (carries : rk.pk = pk)
  | stored {row} (inside : row ∈ s.registry.table.rows) (names : row.id = id) (holds : row.pk = pk)

/- No key, or a registered key of the peer that the message at hand asks for, signed by the server. -/
def Vouches (lib : Library) (s : Server) (w : World) (e : Event Op Resp Call Server) (pk : Bytes) : Prop :=
  pk = [] ∨ ∃ conn config m sk id key, Handles lib w e conn config m ∧ keyOf m = some id ∧ config.inner.sk = some sk ∧
    RegisteredKey lib s w e id key ∧ pk = lib.sign sk id key

/- What every answer with a key stands for. -/
structure KeysVouched (lib : Library) (s : Server) (w : World) : Prop where
  punched : ∀ e ∈ w.log, ∀ route p, e.did.1 = .send route (.punchHoleResponse p) → Vouches lib s w e p.pk
  relayed : ∀ e ∈ w.log, ∀ route rr pk, e.did.1 = .send route (.relayResponse rr) → rr.union = some (.pk pk) →
    Vouches lib s w e pk ∨ ∃ conn config rr', Handles lib w e conn config (.relayResponse rr') ∧ rr'.union = some (.pk pk)

/- The id and the key that an operation writes to the table. -/
def records : Op → Option (String × Bytes)
  | .registry (.dbInsertPeer id _ pk _ _ _) | .registry (.dbUpdatePk _ id pk _ _) => some (id,pk)
  | _ => none

section Runs
variable {lib : Library} {expired : Nat → Nat} {key : String} {ok : World → Act Call Env → Prop} {s : Server} {w : World}
variable {e : Event Op Resp Call Server}

theorem rowSourced : Sourced (machine lib expired key)
    (fun s (b : String × Bytes) => ∃ row ∈ s.registry.table.rows, row.id = b.1 ∧ row.pk = b.2) fun o b => records o = some b where
  op o s b := by
    obtain ⟨id,pk⟩ := b
    rintro ⟨row,inside,rfl,rfl⟩
    rw [show ((machine lib expired key).exec o s).2.registry = registryAfter expired s.registry o from execRegistry o s] at inside
    cases o with
    | registry o =>
      cases o with
      | dbInsertPeer id uuid pk info guid fails =>
        simp only [registryAfter,PeerRegistry.exec] at inside
        split at inside
        · exact .inl ⟨row,inside,rfl,rfl⟩
        · split at inside
          · rename_i table inserted
            rcases (memInsert inserted).mp inside with old | rfl
            · exact .inl ⟨row,old,rfl,rfl⟩
            · exact .inr rfl
          · exact .inl ⟨row,inside,rfl,rfl⟩
      | dbUpdatePk guid id pk info fails =>
        simp only [registryAfter,PeerRegistry.exec] at inside
        split at inside
        · exact .inl ⟨row,inside,rfl,rfl⟩
        · split at inside
          · rename_i table updated
            obtain ⟨old,there,same⟩ := (memUpdate updated).mp inside
            split at same
            · rw [← same]
              exact .inr rfl
            · exact .inl ⟨old,there,by rw [same],by rw [same]⟩
          · exact .inl ⟨row,inside,rfl,rfl⟩
      | getOrInsert id =>
        simp only [registryAfter,PeerRegistry.exec] at inside
        split at inside <;> exact .inl ⟨row,inside,rfl,rfl⟩
      | peerRefresh peer addr =>
        simp only [registryAfter,PeerRegistry.exec] at inside
        split at inside <;> exact .inl ⟨row,inside,rfl,rfl⟩
      | _ => exact .inl ⟨row,inside,rfl,rfl⟩
    | _ => exact .inl ⟨row,inside,rfl,rfl⟩
  env e s b := by
    rintro ⟨row,inside,same⟩
    exact ⟨row,by cases e <;> exact inside,same⟩

/- A key is written to the table for the id of the accepted RegisterPk that carries it. -/
theorem recordAccepted (empty : s.registry.map = ∅) (reach : (machine lib expired key).Reach ok s w) (member : e ∈ w.log)
    {id : String} {pk : Bytes} (recorded : records e.did.1 = some (id,pk)) :
    ∃ peer addr rk, Accepted lib w e peer addr rk ∧ rk.id = id ∧ rk.pk = pk := by
  obtain ⟨done,guard,past⟩ := Machine.guarded (fun _ c => programGuarded c) reach member
  have registered : ∃ addr rk peer, Registers lib e.call done addr rk peer ∧ id = rk.id ∧ pk = rk.pk := by
    unfold records at recorded
    split at recorded
    · rename_i same
      cases recorded
      rwa [same] at guard
    · rename_i same
      cases recorded
      rwa [same] at guard
    · contradiction
  obtain ⟨addr,rk,peer,registers,rfl,rfl⟩ := registered
  exact ⟨peer,addr,rk,acceptedOf empty reach past registers,rfl,rfl⟩

/- The rows of the table hold registered keys only. -/
theorem rowRegistered (empty : s.registry.map = ∅) (reach : (machine lib expired key).Reach ok s w) (member : e ∈ w.log)
    {row : PeerRow} (inside : row ∈ e.before.registry.table.rows) : RegisteredKey lib s w e row.id row.pk := by
  rcases sourcedBefore rowSourced reach member (b := (row.id,row.pk)) ⟨row,inside,rfl,rfl⟩ with ⟨first,there,names,holds⟩ |
    ⟨a,early,less,recorded⟩
  · exact .stored there names holds
  · obtain ⟨peer,addr,rk,accepted,names,carries⟩ := recordAccepted empty reach early recorded
    exact .message early less accepted names carries

theorem registeredLater {a : Event Op Resp Call Server} {id : String} {pk : Bytes} (registered : RegisteredKey lib s w a id pk)
    (less : a.pos < e.pos) : RegisteredKey lib s w e id pk := by
  cases registered with
  | absent none => exact .absent none
  | message inside before accepted names carries => exact .message inside (Nat.lt_trans before less) accepted names carries
  | stored inside names holds => exact .stored inside names holds

/- The entry of a loaded peer holds the key of its row. -/
theorem loadedRegistered (empty : s.registry.map = ∅) (reach : (machine lib expired key).Reach ok s w) (member : e ∈ w.log)
    {row : PeerRow} {id : String} (loads : e.did.1 = .registry (.insertLoaded row id)) : RegisteredKey lib s w e id row.pk := by
  obtain ⟨done,guard,past⟩ := Machine.guarded (fun _ c => programGuarded c) reach member
  rw [loads] at guard
  obtain ⟨fails,found⟩ := guard
  obtain ⟨a,inside,_,less,did⟩ := past _ found
  have answer : Except.ok (some row) = (PeerRegistry.exec expired (.dbGetPeer id fails) a.before.registry).1 :=
    Machine.responseIs reach inside did
  simp only [PeerRegistry.exec] at answer
  split at answer
  · cases answer
  · have there := (Except.ok.inj answer).symm
    have names : row.id = id := by simpa using List.find?_some there
    rw [← names]
    exact registeredLater (rowRegistered empty reach inside (List.mem_of_find?_eq_some there)) less

/- What a handler reads as the key of a peer is a key registered for its id. -/
theorem readRegistered (empty : s.registry.map = ∅) (fresh : s.registry.heap = []) (reach : (machine lib expired key).Reach ok s w)
    (member : e ∈ w.log) {peer : LockPeer} (uses : peer ∈ PeerPointers.used e.did.1) :
    RegisteredKey lib s w e peer.id (e.before.registry.peer peer).pk := by
  obtain ⟨born,short⟩ := usedEvent empty reach member uses
  rcases trackedBefore (keyTracked key) reach member (b := (peer.number,_)) ⟨_,usedCell short,rfl⟩ with ⟨⟨p,old,_⟩,_⟩ |
    ⟨a,inside,less,⟨peer',number,stored⟩,_⟩
  · exact absurd old (noCell fresh)
  · have same : peer' = peer := samePeer empty reach born inside number (stored.imp keyedUses And.left)
    cases same
    rcases stored with keyed | ⟨new,none | ⟨row,loads,holds⟩⟩
    · obtain ⟨done,guard,past⟩ := Machine.guarded (fun _ c => programGuarded c) reach inside
      unfold keys at keyed
      split at keyed
      · rename_i updates
        cases keyed
        rw [updates] at guard
        obtain ⟨rk,registers,_,carries⟩ := guard
        have accepted := acceptedOf empty reach past registers
        exact .message inside less accepted accepted.names carries.symm
      · contradiction
    · exact .absent none
    · have same : (e.before.registry.peer peer).pk = row.pk := holds
      rw [same]
      exact registeredLater (loadedRegistered empty reach inside loads) less

theorem vouchesOf (empty : s.registry.map = ∅) (fresh : s.registry.heap = []) (reach : (machine lib expired key).Reach ok s w)
    {done : List (Did Op Resp)} (past : ∀ d ∈ done, ∃ a ∈ w.log, a.task = e.task ∧ a.pos < e.pos ∧ a.did = d) {pk : Bytes}
    (vouched : Vouched lib e.call done pk) : Vouches lib s w e pk := by
  rcases vouched with none | ⟨conn,config,m,sk,id,peer,p,reads,names,secret,source,read,rfl⟩
  · exact .inl none
  · obtain ⟨a,inside,_,less,did⟩ := past _ read
    have found : p = a.before.registry.peer peer := Machine.responseIs reach inside did
    have uses : peer ∈ PeerPointers.used a.did.1 := by
      rw [did]
      exact .head _
    have registered := readRegistered empty fresh reach inside uses
    rw [sourceNamed empty reach past source,← found] at registered
    exact .inr ⟨conn,config,m,sk,id,p.pk,handlesOf past reads,names,secret,registeredLater registered less,rfl⟩

/- What the main loop pushes to peers is never an answer. -/
theorem turnSilent (empty : s.registry.map = ∅) (idle : s.queue = []) (reach : (machine lib expired key).Reach ok s w)
    (member : e ∈ w.log) (turn : e.call = .turn) {m : Message} {route : Route} (sent : e.did.1 = .send route m) :
    (∀ p, m ≠ .punchHoleResponse p) ∧ ∀ rr, m ≠ .relayResponse rr := by
  obtain ⟨addr,slot,_,q,inside,_,queued⟩ := DatagramTargets.turnSends idle reach member turn sent
  rcases HandlerAuthority.pushedOnAuthority empty reach q inside m addr queued with
    ⟨conn,config,_,_,_,_,a,server,nat,_,forward⟩ | ⟨_,_,_,_,_,_,relay,_⟩
  · unfold RelayForcing.forwarded at forward
    dsimp only at forward
    split at forward
    · rw [forward]
      exact ⟨nofun,nofun⟩
    · rw [forward]
      exact ⟨nofun,nofun⟩
  · rw [relay]
    exact ⟨nofun,nofun⟩

/- From an empty map and an empty queue, whatever the database holds. -/
theorem keysVouched (empty : s.registry.map = ∅) (fresh : s.registry.heap = []) (idle : s.queue = [])
    (reach : (machine lib expired key).Reach ok s w) : KeysVouched lib s w where
  punched e member route p sent := by
    obtain ⟨done,guard,past⟩ := Machine.guarded (fun _ c => programGuarded c) reach member
    rw [sent] at guard
    rcases guard with turn | vouched
    · exact absurd rfl ((turnSilent empty idle reach member turn sent).1 p)
    · exact vouchesOf empty fresh reach past vouched
  relayed e member route rr pk sent carries := by
    obtain ⟨done,guard,past⟩ := Machine.guarded (fun _ c => programGuarded c) reach member
    rw [sent] at guard
    rcases guard with turn | guard
    · exact absurd rfl ((turnSilent empty idle reach member turn sent).2 rr)
    · rcases guard pk carries with vouched | ⟨conn,config,rr',reads,passed⟩
      · exact .inl (vouchesOf empty fresh reach past vouched)
      · exact .inr ⟨conn,config,rr',handlesOf past reads,passed⟩

end Runs

section Concrete
open HandlerAuthority (controllerConn peerConn)

def keyedMessages : Bytes → Option Message
  | [1] => some (.punchHoleRequest ⟨"100000003",.asymmetric,"",controllerToken.text⟩)
  | [2] => some (.registerPk ⟨"100000003",[1],[2]⟩)
  | [3] => some (.punchHoleSent ⟨plainEncode controllerConn.addr,"100000003","",.asymmetric,"1.4"⟩)
  | _ => none

def keyedServer : Server := .init signedIn (.init bootInstant .empty) ⟨⟨0,"","",none,"",some [9]⟩,[],[],[]⟩

def keyedMachine := machine (plainLibrary keyedMessages) hourAgo ""

/- A peer registers, a controller asks for it, and the peer answers that it has punched a hole. -/
def keyedActs : List (Act Call Env) :=
  [.start (.udp ⟨.v4 198 51 100 7,21116⟩ [2] (calm AccountCalls.mintedB))] ++ advances 0 13 ++
    [.start (.accept controllerConn [] [])] ++ advances 1 6 ++
    [.start (.tcp controllerConn [1] (calm AccountCalls.mintedC))] ++ advances 2 12 ++
    [.start (.accept peerConn [] [])] ++ advances 3 6 ++
    [.start (.tcp peerConn [3] (calm AccountCalls.mintedC))] ++ advances 4 10

/- The key in an answer to a controller. -/
def answered : Op → Option Bytes
  | .send _ (.punchHoleResponse p) => some p.pk
  | _ => none

theorem keyHandedOut : ∃ w, keyedMachine.Reach (fun _ _ => True) keyedServer w ∧ (∃ e ∈ w.log, answered e.did.1 = some [2]) ∧
    KeysVouched (plainLibrary keyedMessages) keyedServer w := by
  obtain ⟨w,reach,shown⟩ := Machine.reachWith (fun _ _ => True) (fun _ _ => true) (fun _ _ _ => trivial) keyedActs
    (m := keyedMachine) (s := keyedServer)
    (P := fun w => w.log.any fun e => decide (answered e.did.1 = some [2])) (by decide +kernel)
  simp only [List.any_eq_true,decide_eq_true_eq] at shown
  exact ⟨w,reach,shown,keysVouched rfl rfl rfl reach⟩

end Concrete
end OpenuuServer.KeySignatures
