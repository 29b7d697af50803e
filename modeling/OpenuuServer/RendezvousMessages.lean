import OpenuuServer.AccountStore
import OpenuuServer.PeerRegistry
import Mathlib.Algebra.Ring.Nat

/-! The messages of the rendezvous protocol, as far as hbbs reads or writes them, and what
its functions compute without touching any state. What hbbs sends stands for its bytes.
Parsing, address mangling, signatures, the key exchange, its cipher and name resolution are
library functions and stay parameters. -/
namespace OpenuuServer.RendezvousMessages
open PeerRegistry (Bytes SocketAddr RegisterPk Result)
open IpText

inductive NatType where
  | unknownNat
  | asymmetric
  | symmetric
  | unrecognized (value : Int)
  deriving DecidableEq

def NatType.enumValue : NatType → Option NatType
  | .unrecognized _ => none
  | known => some known

structure RegisterPeer where
  id : String
  serial : Int
  deriving DecidableEq

structure PunchHoleRequest where
  id : String
  natType : NatType
  licenceKey : String
  token : String
  deriving DecidableEq

structure PunchHole where
  socketAddr : Bytes
  relayServer : String
  natType : NatType
  deriving DecidableEq

structure FetchLocalAddr where
  socketAddr : Bytes
  relayServer : String
  deriving DecidableEq

structure PunchHoleSent where
  socketAddr : Bytes
  id : String
  relayServer : String
  natType : NatType
  version : String
  deriving DecidableEq

structure LocalAddr where
  socketAddr : Bytes
  localAddr : Bytes
  relayServer : String
  id : String
  version : String
  deriving DecidableEq

inductive Failure where
  | idNotExist
  | offline
  | licenseMismatch
  deriving DecidableEq

inductive PunchUnion where
  | natType (value : NatType)
  | isLocal (value : Bool)
  deriving DecidableEq

structure PunchHoleResponse where
  socketAddr : Bytes := []
  pk : Bytes := []
  failure : Failure := .idNotExist
  relayServer : String := ""
  union : Option PunchUnion := none
  deriving DecidableEq

structure ConfigUpdate where
  serial : Int
  rendezvousServers : List String
  deriving DecidableEq

structure TestNatResponse where
  port : Int
  cu : Option ConfigUpdate
  deriving DecidableEq

/- `other` is the rest of the message, which hbbs passes on unread. -/
structure RequestRelay where
  id : String := ""
  uuid : String := ""
  socketAddr : Bytes := []
  relayServer : String := ""
  token : String := ""
  other : Bytes := []
  deriving DecidableEq

inductive Party where
  | id (value : String)
  | pk (value : Bytes)
  deriving DecidableEq

structure RelayResponse where
  socketAddr : Bytes
  uuid : String
  relayServer : String
  union : Option Party
  refuseReason : String
  version : String
  other : Bytes := []
  deriving DecidableEq

/- The generated accessor: empty unless the union holds an id. -/
def RelayResponse.id (rr : RelayResponse) : String :=
  match rr.union with
  | some (.id value) => value
  | _ => ""

inductive Message where
  | registerPeer (rp : RegisterPeer)
  | registerPeerResponse (requestPk : Bool)
  | registerPk (rk : RegisterPk)
  | registerPkResponse (result : Result)
  | punchHoleRequest (ph : PunchHoleRequest)
  | punchHole (p : PunchHole)
  | punchHoleSent (phs : PunchHoleSent)
  | punchHoleResponse (p : PunchHoleResponse)
  | fetchLocalAddr (f : FetchLocalAddr)
  | localAddr (la : LocalAddr)
  | configureUpdate (cu : ConfigUpdate)
  | softwareUpdate (url : String)
  | requestRelay (rf : RequestRelay)
  | relayResponse (rr : RelayResponse)
  | testNatRequest (serial : Int)
  | testNatResponse (res : TestNatResponse)
  | onlineRequest (peers : List String)
  | onlineResponse (states : List Nat)
  | keyExchange (keys : List Bytes)
  deriving DecidableEq

structure Ipv4Network where
  address : Nat
  length : Nat
  deriving DecidableEq

def octets (a b c d : UInt8) : Nat := ((a.toNat * 256 + b.toNat) * 256 + c.toNat) * 256 + d.toNat

def Ipv4Network.contains (n : Ipv4Network) (address : Nat) : Bool :=
  address / 2 ^ (32 - n.length) = n.address / 2 ^ (32 - n.length)

/- The standard library's `to_ipv4`: an IPv4-mapped or an IPv4-compatible address. -/
def toIpv4 : List UInt16 → Option Nat
  | [0,0,0,0,0,0xffff,high,low] | [0,0,0,0,0,0,high,low] => some (high.toNat * 65536 + low.toNat)
  | _ => none

structure Inner where
  serial : Int
  version : String
  softwareUrl : String
  mask : Option Ipv4Network
  localIp : String
  sk : Option Bytes
  deriving DecidableEq

/- What a clone of `RendezvousServer` holds for itself; all else is shared between clones. -/
structure Config where
  inner : Inner
  relayServers : List String
  relayServers0 : List String
  rendezvousServers : List String
  deriving DecidableEq

def Config.isLan (config : Config) (addr : SocketAddr) : Bool :=
  match config.inner.mask with
  | some network => match addr.ip with
    | .v4 a b c d => network.contains (octets a b c d)
    | .v6 segments => (toIpv4 segments.list).any network.contains
  | none => false

def sameFamilyIp (a b : SocketAddr) : Bool :=
  match a.ip,b.ip with
  | .v4 _ _ _ _,.v4 _ _ _ _ | .v6 _,.v6 _ => a.ip = b.ip
  | _,_ => false

/- Byte k of the answer to an online query: peer number i is bit 7 - i % 8 of byte i / 8. -/
def onlineStates (online : List Bool) : List Nat :=
  (List.range ((online.length + 7) / 8)).map fun k =>
    ((List.range 8).map fun bit => if online.getD (8 * k + bit) false then 2 ^ (7 - bit) else 0).sum

/- `parse` is none for bytes that cannot be parsed or carry no union; `decrypt` takes the key,
the frames it was given before and the frame. -/
structure Library where
  tryIntoV4 : SocketAddr → SocketAddr
  encode : SocketAddr → Bytes
  decode : Bytes → SocketAddr
  parse : Bytes → Option Message
  sign : Bytes → String → Bytes → Bytes
  openBox : Bytes → Bytes → Bytes → Option Bytes
  decrypt : Bytes → List Bytes → Bytes → Option Bytes
  validServer : String → Bool
  prim : AccountStore.Primitives

/- What is assumed of AddrMangle: decoding undoes encoding, up to the IPv4-mapped form. -/
def Library.Undoes (lib : Library) : Prop :=
  ∀ addr, lib.tryIntoV4 (lib.decode (lib.encode addr)) = lib.tryIntoV4 addr

section Functions
variable (lib : Library)

def getServers (s : String) : List String :=
  ((s.toList.splitOn ',').map String.ofList).filter fun x => !x.isEmpty && lib.validServer x

def Config.parseRelayServers (config : Config) (relayServers : String) : Config :=
  { config with relayServers0 := getServers lib relayServers,relayServers := getServers lib relayServers }

/- `KeyOffer::accept`: the symmetric key, when the answer was sealed to our key. -/
def accept (secret : Bytes) : List Bytes → Option Bytes
  | [theirs,sealed] => lib.openBox secret theirs sealed
  | _ => none

def configUpdate (config : Config) : ConfigUpdate := ⟨config.inner.serial,config.rendezvousServers⟩

def testNatResponse (config : Config) (serial : Int) (addr : SocketAddr) : Message :=
  .testNatResponse ⟨addr.port,if serial < config.inner.serial then some (configUpdate config) else none⟩

def refusal (failure : Failure) : Message := .punchHoleResponse { failure := failure }

end Functions
end OpenuuServer.RendezvousMessages
