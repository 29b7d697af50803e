import OpenuuServer.AtomicProgram
import OpenuuServer.UniqueTable
import OpenuuServer.IpText
import Mathlib.Data.List.AList

/-! The registration of peers in hbbs: PeerMap in memory, table `peer` on disk, and the
functions that bind an id to a uuid. One lock section or one database call is one operation.
A database call can fail without effect; which of them fail is part of the call. -/
namespace OpenuuServer.PeerRegistry
open AtomicProgram UniqueTable IpText

abbrev Bytes := List UInt8

structure SocketAddr where
  ip : IpAddr
  port : Nat
  deriving DecidableEq

structure PeerInfo where
  ip : String
  deriving DecidableEq

/- Column `info` holds the JSON text of a PeerInfo; text that cannot be read back stands
for the default one. -/
structure PeerRow where
  guid : Bytes
  id : String
  uuid : Bytes
  pk : Bytes
  info : PeerInfo
  deriving DecidableEq

/- Instants are nanoseconds of the monotonic clock. -/
structure Peer where
  socketAddr : SocketAddr
  lastRegTime : Nat
  guid : Bytes
  uuid : Bytes
  pk : Bytes
  info : PeerInfo
  regPk : Nat × Nat
  deriving DecidableEq

def unset : SocketAddr := ⟨.v4 0 0 0 0,0⟩

def Peer.fresh (expired : Nat) : Peer := ⟨unset,expired,[],[],[],⟨""⟩,(0,expired)⟩

def Peer.register (p : Peer) (addr : SocketAddr) (uuid pk : Bytes) (ip : String) (now : Nat) : Peer :=
  { p with socketAddr := addr,uuid := uuid,pk := pk,lastRegTime := now,info := ⟨ip⟩ }

/- A shared pointer to a locked peer: the id it was allocated for and its number. -/
structure LockPeer where
  id : String
  number : Nat
  deriving DecidableEq

abbrev Peers := Table PeerRow fun a b => a.guid = b.guid ∨ a.id = b.id

abbrev IpBlocker := AList fun _ : String => (Nat × Nat) × (List String × Nat)
abbrev IpChanges := AList fun _ : String => Nat × AList fun _ : String => Int

structure Registry where
  now : Nat
  table : Peers
  map : AList fun _ : String => LockPeer
  heap : List Peer
  ipBlocker : IpBlocker
  ipChanges : IpChanges

def Registry.init (now : Nat) (table : Peers) : Registry := ⟨now,table,∅,[],∅,∅⟩

def Registry.peer (s : Registry) (ref : LockPeer) : Peer := s.heap.getD ref.number (.fresh 0)

def Registry.restart (s : Registry) : Registry := .init s.now s.table

def elapsedSecs (now since : Nat) : Nat := (now - since) / 1000000000

inductive DbError where
  | constraint
  | failed
  deriving DecidableEq

inductive Result where
  | ok
  | uuidMismatch
  | tooFrequent
  | serverError
  deriving DecidableEq

inductive Op where
  | checkIpBlocker (ip id : String)
  | mapRead (id : String)
  | dbGetPeer (id : String) (fails : Bool)
  | insertLoaded (row : PeerRow) (id : String)
  | getOrInsert (id : String)
  | peerRead (peer : LockPeer)
  | regPkRead (peer : LockPeer)
  | regPkWrite (peer : LockPeer) (regPk : Nat × Nat)
  | ipChange (id ip : String)
  | peerUpdate (peer : LockPeer) (addr : SocketAddr) (uuid pk : Bytes) (ip : String)
  | dbInsertPeer (id : String) (uuid pk : Bytes) (info : PeerInfo) (guid : Bytes) (fails : Bool)
  | guidWrite (peer : LockPeer) (guid : Bytes)
  | dbUpdatePk (guid : Bytes) (id : String) (pk : Bytes) (info : PeerInfo) (fails : Bool)
  | peerRefresh (peer : LockPeer) (addr : SocketAddr)
  deriving DecidableEq

@[reducible] def Resp : Op → Type
  | .checkIpBlocker _ _ => Bool
  | .mapRead _ => Option LockPeer
  | .dbGetPeer _ _ => Except DbError (Option PeerRow)
  | .insertLoaded _ _ | .getOrInsert _ => LockPeer
  | .peerRead _ => Peer
  | .regPkRead _ => (Nat × Nat) × Nat
  | .peerUpdate _ _ _ _ _ => PeerInfo × Bytes
  | .dbInsertPeer _ _ _ _ _ _ => Except DbError Bytes
  | .dbUpdatePk _ _ _ _ _ => Except DbError Unit
  | .peerRefresh _ _ => Bool
  | _ => Unit

/- More than 30 requests in a row without a minute's pause, or more than 300 ids in a row
without a day's pause, are refused. -/
def blocked (now : Nat) (blocker : IpBlocker) (ip id : String) : Bool × IpBlocker :=
  match blocker.lookup ip with
  | none => (true,blocker.insert ip ((0,now),([],now)))
  | some (requests,ids) =>
    let quiet : Bool := 60 < elapsedSecs now requests.2
    if !quiet && decide (30 < requests.1) then (false,blocker)
    else
      let requests : Nat × Nat := ((if quiet then 0 else requests.1) + 1,now)
      let isNew : Bool := id ∉ ids.1
      let day : Bool := 86400 < elapsedSecs now ids.2
      if !day && decide (300 < ids.1.length) then (!isNew,blocker.insert ip (requests,ids))
      else
        let kept := if day then [] else ids.1
        (true,blocker.insert ip (requests,(if isNew then kept ++ [id] else kept,now)))

def changedIp (now : Nat) (changes : IpChanges) (id ip : String) : IpChanges :=
  match changes.lookup id with
  | none => changes.insert id (now,(∅ : AList fun _ : String => Int).insert ip 1)
  | some (since,ips) =>
    if 180 < elapsedSecs now since then changes.insert id (now,(∅ : AList fun _ : String => Int).insert ip 1)
    else match ips.lookup ip with
      | some times => changes.insert id (since,ips.insert ip (times + 1))
      | none => changes.insert id (since,ips.insert ip 1)

/- The change test of `register_peer_response`: without a port the persisted text decides. -/
def ipChanged (old : Peer) (ip : IpAddr) : Bool :=
  (if old.socketAddr.port ≠ 0 then decide (ip ≠ old.socketAddr.ip) else decide (ip.text ≠ old.info.ip)) &&
    !ip.isLoopback

def requestPk (old : Peer) (ip : IpAddr) : Bool := old.pk.isEmpty || ipChanged old ip

section Semantics
/- `expired` is `get_expired_time` at an instant. -/
variable (expired : Nat → Nat)

def Registry.allocate (s : Registry) (id : String) (p : Peer) : LockPeer × Registry :=
  let ref : LockPeer := ⟨id,s.heap.length⟩
  (ref,{ s with heap := s.heap ++ [p],map := s.map.insert id ref })

def Registry.amend (s : Registry) (ref : LockPeer) (f : Peer → Peer) : Registry :=
  { s with heap := s.heap.modify ref.number f }

def loaded (expired : Nat) (row : PeerRow) : Peer :=
  { Peer.fresh expired with guid := row.guid,uuid := row.uuid,pk := row.pk,info := row.info }

def exec : (o : Op) → Registry → Resp o × Registry
  | .checkIpBlocker ip id,s =>
    let (allowed,blocker) := blocked s.now s.ipBlocker ip id
    (allowed,{ s with ipBlocker := blocker })
  | .mapRead id,s => (s.map.lookup id,s)
  | .dbGetPeer id fails,s =>
    (if fails then .error .failed else .ok (s.table.rows.find? fun row => row.id = id),s)
  | .insertLoaded row id,s => s.allocate id (loaded (expired s.now) row)
  | .getOrInsert id,s =>
    match s.map.lookup id with
    | some ref => (ref,s)
    | none => s.allocate id (.fresh (expired s.now))
  | .peerRead peer,s => (s.peer peer,s)
  | .regPkRead peer,s => (((s.peer peer).regPk,s.now),s)
  | .regPkWrite peer regPk,s => ((),s.amend peer fun p => { p with regPk := regPk })
  | .ipChange id ip,s => ((),{ s with ipChanges := changedIp s.now s.ipChanges id ip })
  | .peerUpdate peer addr uuid pk ip,s =>
    ((⟨ip⟩,(s.peer peer).guid),s.amend peer fun p => p.register addr uuid pk ip s.now)
  | .dbInsertPeer id uuid pk info guid fails,s =>
    if fails then (.error .failed,s)
    else match s.table.insert ⟨guid,id,uuid,pk,info⟩ with
      | some table => (.ok guid,{ s with table := table })
      | none => (.error .constraint,s)
  | .guidWrite peer guid,s => ((),s.amend peer fun p => { p with guid := guid })
  | .dbUpdatePk guid id pk info fails,s =>
    if fails then (.error .failed,s)
    else match s.table.update (fun row => row.guid = guid) fun row => { row with id := id,pk := pk,info := info } with
      | some table => (.ok (),{ s with table := table })
      | none => (.error .constraint,s)
  | .peerRefresh peer addr,s =>
    let ask := requestPk (s.peer peer) addr.ip
    (ask,if ask then s else s.amend peer fun p => { p with socketAddr := addr,lastRegTime := s.now })

end Semantics

def act (o : Op) : Prog Op Resp (Resp o) := perform o

/- Which database calls of a request return an error. -/
structure Outage where
  getPeer : Bool
  insertPeer : Bool
  updatePk : Bool
  deriving DecidableEq

def Outage.none : Outage := ⟨false,false,false⟩

structure RegisterPk where
  id : String
  uuid : Bytes
  pk : Bytes
  deriving DecidableEq

def PeerMap.get (id : String) (fails : Bool) : Prog Op Resp (Option LockPeer) := do
  let p : Option LockPeer ← act (.mapRead id)
  if p.isSome then return p
  let row : Except DbError (Option PeerRow) ← act (.dbGetPeer id fails)
  match row with
  | .ok (some row) =>
    let peer : LockPeer ← act (.insertLoaded row id)
    return some peer
  | _ => return none

def PeerMap.getOr (id : String) (fails : Bool) : Prog Op Resp LockPeer := do
  if let some p ← PeerMap.get id fails then return p
  act (.getOrInsert id)

def PeerMap.updatePk (id : String) (peer : LockPeer) (addr : SocketAddr) (uuid pk : Bytes) (ip : String)
    (newGuid : Bytes) (out : Outage) : Prog Op Resp Result := do
  let (info,guid) ← (act (.peerUpdate peer addr uuid pk ip) : Prog Op Resp (PeerInfo × Bytes))
  if guid.isEmpty then
    let inserted : Except DbError Bytes ← act (.dbInsertPeer id uuid pk info newGuid out.insertPeer)
    match inserted with
    | .error _ => return .serverError
    | .ok guid => act (.guidWrite peer guid)
  else
    let updated : Except DbError Unit ← act (.dbUpdatePk guid id pk info out.updatePk)
    if let .error _ := updated then return .serverError
  return .ok

/- The check of the stored peer against a request: `none` is a mismatch, otherwise whether
anything changed and whether the IP did. -/
def checkPeer (peer : Peer) (rk : RegisterPk) (ip : String) : Option (Bool × Bool) :=
  if peer.uuid.isEmpty then some (true,false)
  else if peer.uuid = rk.uuid then
    if peer.info.ip ≠ ip ∧ peer.pk ≠ rk.pk then none
    else
      let ipChanged : Bool := peer.info.ip ≠ ip
      some (decide (peer.uuid ≠ rk.uuid) || decide (peer.pk ≠ rk.pk) || ipChanged,ipChanged)
  else none

/- How often the key was registered: a fourth time within six seconds is too frequent. -/
def countPk (regPk : Nat × Nat) (now : Nat) : Option (Nat × Nat) :=
  if 6 < elapsedSecs now regPk.2 then some (1,now)
  else if 2 < regPk.1 then none
  else some (regPk.1 + 1,now)

/- `register_pk_result` once it has the pointer. -/
def registerAt (rk : RegisterPk) (addr : SocketAddr) (newGuid : Bytes) (out : Outage) (peer : LockPeer) :
    Prog Op Resp Result := do
  let ip := addr.ip.text
  let stored : Peer ← act (.peerRead peer)
  let some (changed,ipChanged) := checkPeer stored rk ip | return .uuidMismatch
  let (regPk,now) ← (act (.regPkRead peer) : Prog Op Resp ((Nat × Nat) × Nat))
  let some regPk := countPk regPk now | return .tooFrequent
  act (.regPkWrite peer regPk)
  if ipChanged then act (.ipChange rk.id ip)
  if changed then
    let _ ← PeerMap.updatePk rk.id peer addr rk.uuid rk.pk ip newGuid out
  return .ok

def registerPkResult (rk : RegisterPk) (addr : SocketAddr) (newGuid : Bytes) (out : Outage) :
    Prog Op Resp Result := do
  if rk.id.utf8ByteSize < 6 then return .uuidMismatch
  let allowed : Bool ← act (.checkIpBlocker addr.ip.text rk.id)
  if !allowed then return .tooFrequent
  let peer ← PeerMap.getOr rk.id out.getPeer
  registerAt rk addr newGuid out peer

def registerPeerResponse (id : String) (addr : SocketAddr) : Prog Op Resp Bool := do
  let old : Option LockPeer ← act (.mapRead id)
  match old with
  | some old => act (.peerRefresh old addr)
  | none => return true

/- What arrives: both transports drop a RegisterPk without uuid or pk and a RegisterPeer
without id. `get` is the lookup on behalf of a PunchHoleRequest or an online query. -/
inductive Call where
  | registerPk (rk : RegisterPk) (addr : SocketAddr) (newGuid : Bytes) (out : Outage)
  | registerPeer (id : String) (addr : SocketAddr)
  | get (id : String) (fails : Bool)
  deriving DecidableEq

inductive Reply where
  | silent
  | pk (result : Result)
  | peer (requestPk : Bool)
  | found (peer : Option LockPeer)
  deriving DecidableEq

def program : Call → Prog Op Resp Reply
  | .registerPk rk addr newGuid out =>
    if rk.uuid.isEmpty || rk.pk.isEmpty then return .silent
    else .pk <$> registerPkResult rk addr newGuid out
  | .registerPeer id addr =>
    if id.isEmpty then return .silent else .peer <$> registerPeerResponse id addr
  | .get id fails => .found <$> PeerMap.get id fails

end OpenuuServer.PeerRegistry
