import OpenuuServer.IpText
import OpenuuServer.MachineIntegers
import OpenuuServer.ProcessRuns

/-! The ports the two servers listen on, from the text of a port argument through the integer types of
the start. Rendezvous reads the text as `i32` and casts each port where it binds it; the relay reads
its environment as `i32` and the text it has settled on as `u16`. -/
namespace OpenuuServer.ListeningPorts
open IpText (IpAddr)
open MachineIntegers ProcessRuns
open ProcessRuns.Process

inductive Protocol
  | tcp
  | udp
  deriving DecidableEq

structure Listener where
  protocol : Protocol
  ip : Option IpAddr
  port : Int

/- A port a socket has got, and its protocol. -/
abbrev Bound := Protocol × Int

structure Startup where
  exact : Bool
  asked : Nat
  bound : List Bound
  listening : Bool
  deriving DecidableEq

def idle : Startup := ⟨true,0,[],false⟩

/- What a start depends on besides its port: the bind address, whether the key is had and then the
peer map or the ticket store, and what the system answers to the listeners. A port other than zero is
the one that is got. -/
structure Host where
  overflowChecks : Bool
  bindAddr : Option (Option IpAddr)
  keyed : Bool
  stored : Bool
  grants : Nat → Listener → Option Int
  kept : ∀ n l q, l.port ≠ 0 → grants n l = some q → q = l.port

def add (h : Host) (w : Width) (a b : Int) : Process Startup Int :=
  if w.fits (a + b) then value (a + b)
  else do
    update fun s => {s with exact := false}
    if h.overflowChecks then finish .panicked else value (w.wrap (a + b))

/- `as u16` -/
def cast (n : Int) : Process Startup Int :=
  if u16.fits n then value n
  else do
    update fun s => {s with exact := false}
    value (u16.wrap n)

def ask (h : Host) (l : Listener) : Process Startup Bool := fun s =>
  match h.grants s.asked l with
  | some q => (.ok true,{s with asked := s.asked + 1, bound := s.bound ++ [(l.protocol,q)]})
  | none => (.ok false,{s with asked := s.asked + 1})

def listen (h : Host) (l : Listener) : Process Startup Unit := do
  if ← ask h l then value () else finish .bailed

def unspecified4 : IpAddr := .v4 0 0 0 0
def unspecified6 : IpAddr := .v6 ⟨[0,0,0,0,0,0,0,0],rfl⟩
def localhost : IpAddr := .v4 127 0 0 1

def createUdpListener (h : Host) (bindAddr : Option IpAddr) (port : Int) : Process Startup Unit :=
  match bindAddr with
  | some ip => do
    let p ← cast port
    listen h ⟨.udp,some ip,p⟩
  | none => do
    let p ← cast port
    if ← ask h ⟨.udp,some unspecified6,p⟩ then value ()
    else do
      let p ← cast port
      listen h ⟨.udp,some unspecified4,p⟩

def listenTcp (h : Host) (bindAddr : Option IpAddr) (port : Int) : Process Startup Unit :=
  listen h ⟨.tcp,bindAddr,port⟩

def createTcpListener (h : Host) (bindAddr : Option IpAddr) (port : Int) : Process Startup Unit := do
  let p ← cast port
  listenTcp h bindAddr p

def consoleAddr (bindAddr : Option IpAddr) (port : Int) : Option Listener :=
  match bindAddr with
  | some ip => if ip = unspecified4 ∨ ip = unspecified6 ∨ ip = localhost then none else some ⟨.tcp,some localhost,port⟩
  | none => none

def listenConsole (h : Host) (bindAddr : Option IpAddr) (port : Int) : Process Startup Unit :=
  match consoleAddr bindAddr port with
  | some l => listen h l
  | none => value ()

def announce : Process Startup Unit := update fun s => {s with listening := true}

namespace Rendezvous

/- `RENDEZVOUS_PORT` -/
def defaultPort : Int := 21116

inductive LoopFailure
  | udpSocket
  | listener3
  | listener2
  | listener
  | consoleListener

structure Ports where
  port : Int
  natPort : Int
  wsPort : Int

/- A listener that failed is bound again. -/
def restore (h : Host) (bindAddr : Option IpAddr) (p : Ports) : LoopFailure → Process Startup Unit
  | .udpSocket => createUdpListener h bindAddr p.port
  | .listener => createTcpListener h bindAddr p.port
  | .listener2 => createTcpListener h bindAddr p.natPort
  | .consoleListener => do
    let console ← cast p.natPort
    listenConsole h bindAddr console
  | .listener3 => createTcpListener h bindAddr p.wsPort

def startWithBind (h : Host) (bindAddr : Option IpAddr) (port : Int) (failures : List LoopFailure) :
    Process Startup Unit := do
  if h.keyed then
    let natPort ← add h i32 port (-1)
    let wsPort ← add h i32 port 2
    if h.stored then
      createUdpListener h bindAddr port
      createTcpListener h bindAddr port
      createTcpListener h bindAddr natPort
      createTcpListener h bindAddr wsPort
      let console ← cast natPort
      listenConsole h bindAddr console
      announce
      each (restore h bindAddr ⟨port,natPort,wsPort⟩) failures
    else finish .bailed
  else finish .exited

def main (h : Host) (port : Option String) (failures : List LoopFailure) : Process Startup Unit := do
  let port ← orBail (i32.parse (port.getD (toString defaultPort)))
  if port < 3 then finish .bailed
  else
    let bindAddr ← orBail h.bindAddr
    startWithBind h bindAddr port failures

end Rendezvous

namespace Relay

/- `RELAY_PORT` -/
def defaultPort : Int := 21117

def round (h : Host) (bindAddr : Option IpAddr) (port port2 : Int) : Process Startup Unit := do
  listenTcp h bindAddr port
  listenTcp h bindAddr port2
  listenConsole h bindAddr port
  announce

/- The main task binds anew in every round of its loop. -/
def startWithBind (h : Host) (bindAddr : Option IpAddr) (port : String) (rounds : Nat) : Process Startup Unit := do
  if h.keyed then
    if h.stored then
      let port ← orBail (u16.parse port)
      let port2 ← add h u16 port 2
      each (fun _ : Unit => round h bindAddr port port2) (List.replicate rounds ())
    else finish .bailed
  else finish .exited

/- `PORT` of the environment: one less than the port of the relay. -/
def environmentPort (h : Host) (inherited : Option String) : Process Startup Int :=
  match inherited with
  | some v =>
    let v := (i32.parse v).getD 0
    if v > 0 then add h i32 v 1 else value defaultPort
  | none => value defaultPort

def main (h : Host) (flag inherited : Option String) (rounds : Nat) : Process Startup Unit := do
  let port ← environmentPort h inherited
  let bindAddr ← orBail h.bindAddr
  startWithBind h bindAddr (flag.getD (toString port)) rounds

end Relay

/- What the documentation lists: a protocol and a distance from the port. -/
def Rendezvous.table : List Bound := [(.tcp,-1),(.udp,0),(.tcp,0),(.tcp,2)]
def Relay.table : List Bound := [(.tcp,0),(.tcp,2)]

def placed (table : List Bound) (p : Int) : List Bound := table.map fun l => (l.1,p + l.2)

/- The port that the documentation derives from the settings; a text that is no number names none. -/
def Rendezvous.configured (port : Option String) : Option Int := numeral (port.getD (toString defaultPort)).toList

def Relay.configured (flag inherited : Option String) : Option Int :=
  match flag,inherited with
  | some f,_ => numeral f.toList
  | none,some v => (numeral v.toList).map (· + 1)
  | none,none => some defaultPort

def InRange (ports : List Bound) : Prop := ∀ l ∈ ports, 1 ≤ l.2 ∧ l.2 ≤ 65535

def Documented (table : List Bound) (port : Option Int) (s : Startup) : Prop :=
  ∃ p, port = some p ∧ InRange (placed table p) ∧ ∀ l, l ∈ s.bound ↔ l ∈ placed table p

/- Every number has kept within its type, and a server that listens does so on the documented ports. -/
def Meets (table : List Bound) (port : Option Int) (s : Startup) : Prop :=
  s.exact = true ∧ (s.listening = true → Documented table port s)

def Rendezvous.Fits (port : Option String) : Prop :=
  ∀ p, i32.parse (port.getD (toString defaultPort)) = some p → p ≤ 65533

def Relay.Fits (flag inherited : Option String) : Prop :=
  (∀ v, inherited = some v → i32.parse v ≠ some 2147483647) ∧
  match flag with
  | some f => ∀ p, u16.parse f = some p → 1 ≤ p ∧ p ≤ 65533
  | none => ∀ v, inherited = some v → ∃ n, i32.parse v = some n ∧ 0 < n ∧ (n ≤ 65532 ∨ 65535 ≤ n)

/- On the way to the documented ports: those of `got` are bound, and no other port is. -/
structure Stage (table : List Bound) (p : Int) (got : List Bound) (s : Startup) : Prop where
  exact : s.exact = true
  within : s.bound ⊆ placed table p
  reached : got ⊆ s.bound
  complete : s.listening = true → placed table p ⊆ s.bound

section Steps
variable {h : Host} {table : List Bound} {p : Int} {got : List Bound} {E : Startup → Prop}

theorem stageMeets (range : InRange (placed table p)) {s : Startup} (stage : Stage table p got s) :
    Meets table (some p) s :=
  ⟨stage.exact,fun listens => ⟨p,rfl,range,fun _ => ⟨fun bound => stage.within bound,fun place => stage.complete listens place⟩⟩⟩

theorem castFits {P : Startup → Prop} {n : Int} (fits : u16.fits n = true) :
    Leads P (cast n) (fun m s => m = n ∧ P s) E := by
  rw [cast,if_pos fits]
  exact leadsValue fun _ holds => ⟨rfl,holds⟩

theorem addFits {P : Startup → Prop} {w : Width} {a b : Int} (fits : w.fits (a + b) = true) :
    Leads P (add h w a b) (fun m s => m = a + b ∧ P s) E := by
  rw [add,if_pos fits]
  exact leadsValue fun _ holds => ⟨rfl,holds⟩

/- A socket that is granted has the port it asked for. -/
theorem stageAsk {l : Listener} (real : l.port ≠ 0) (place : (l.protocol,l.port) ∈ placed table p) :
    Leads (Stage table p got) (ask h l)
      (fun granted s => Stage table p (if granted then (l.protocol,l.port) :: got else got) s) E := by
  intro s stage
  unfold ask
  split
  · rename_i q granted
    refine ⟨?_,fun _ _ ran => by cases ran⟩
    intro _ s' ran
    cases ran
    cases h.kept _ _ _ real granted
    refine ⟨stage.exact,?_,?_,fun listens => List.subset_append_of_subset_left _ (stage.complete listens)⟩
    · exact List.append_subset.mpr ⟨stage.within,List.cons_subset.mpr ⟨place,List.nil_subset _⟩⟩
    · exact List.cons_subset.mpr ⟨List.mem_append_right _ List.mem_cons_self,List.subset_append_of_subset_left _ stage.reached⟩
  · refine ⟨?_,fun _ _ ran => by cases ran⟩
    intro _ s' ran
    cases ran
    exact ⟨stage.exact,stage.within,stage.reached,stage.complete⟩

theorem stageListen (range : InRange (placed table p)) {l : Listener} (place : (l.protocol,l.port) ∈ placed table p) :
    Leads (Stage table p got) (listen h l) (fun _ => Stage table p ((l.protocol,l.port) :: got))
      (Meets table (some p)) := by
  have real : l.port ≠ 0 := by have := range _ place; omega
  refine leadsThen (stageAsk real place) ?_
  intro granted
  cases granted
  · exact leadsFinish fun _ stage => stageMeets range stage
  · exact leadsValue fun _ stage => stage

theorem inRangeFits (range : InRange (placed table p)) {l : Bound} (place : l ∈ placed table p) : u16.fits l.2 = true := by
  have bounds := range l place
  exact fitsBounds.mpr ⟨by change 0 ≤ l.2; omega,bounds.2⟩

theorem stageTcp (range : InRange (placed table p)) {bindAddr : Option IpAddr} {port : Int}
    (place : (.tcp,port) ∈ placed table p) :
    Leads (Stage table p got) (createTcpListener h bindAddr port) (fun _ => Stage table p ((.tcp,port) :: got))
      (Meets table (some p)) := by
  refine leadsThen (castFits (inRangeFits range place)) ?_
  intro m s both
  obtain ⟨rfl,stage⟩ := both
  exact stageListen range (l := ⟨.tcp,bindAddr,m⟩) place s stage

theorem stageUdp (range : InRange (placed table p)) {bindAddr : Option IpAddr} {port : Int}
    (place : (.udp,port) ∈ placed table p) :
    Leads (Stage table p got) (createUdpListener h bindAddr port) (fun _ => Stage table p ((.udp,port) :: got))
      (Meets table (some p)) := by
  have real : port ≠ 0 := by have := range _ place; dsimp only at this; omega
  have fits := inRangeFits range place
  cases bindAddr with
  | some ip =>
    refine leadsThen (castFits fits) ?_
    intro m s both
    obtain ⟨rfl,stage⟩ := both
    exact stageListen range (l := ⟨.udp,some ip,m⟩) place s stage
  | none =>
    refine leadsThen (castFits fits) ?_
    intro m s both
    obtain ⟨rfl,stage⟩ := both
    refine leadsThen (stageAsk (l := ⟨.udp,some unspecified6,m⟩) real place) ?_ s stage
    intro granted
    cases granted
    · refine leadsThen (castFits fits) ?_
      intro m' s' both'
      obtain ⟨rfl,stage⟩ := both'
      exact stageListen range (l := ⟨.udp,some unspecified4,m'⟩) place s' stage
    · exact leadsValue fun _ stage => stage

theorem stageLess {wanted : List Bound} (fewer : wanted ⊆ got) {s : Startup} (stage : Stage table p got s) :
    Stage table p wanted s :=
  ⟨stage.exact,stage.within,List.Subset.trans fewer stage.reached,stage.complete⟩

theorem stageConsole (range : InRange (placed table p)) {bindAddr : Option IpAddr} {port : Int}
    (place : (.tcp,port) ∈ placed table p) :
    Leads (Stage table p got) (listenConsole h bindAddr port) (fun _ => Stage table p got) (Meets table (some p)) := by
  unfold listenConsole
  split
  · rename_i l console
    have shape : l = ⟨.tcp,some localhost,port⟩ := by
      unfold consoleAddr at console
      split at console <;> try contradiction
      split at console <;> try contradiction
      exact (Option.some.inj console).symm
    cases shape
    exact leadsWeaken (stageListen range place) (fun _ stage => stage)
      (fun _ _ stage => stageLess (List.subset_cons_self _ _) stage) fun _ ended => ended
  · exact leadsValue fun _ stage => stage

theorem stageAnnounce (all : placed table p ⊆ got) :
    Leads (Stage table p got) announce (fun _ => Stage table p got) E := by
  refine leadsUpdate ?_
  intro s stage
  exact ⟨stage.exact,stage.within,stage.reached,fun _ => List.Subset.trans all stage.reached⟩

end Steps

theorem idleStage (table : List Bound) (p : Int) : Stage table p [] idle :=
  ⟨rfl,List.nil_subset _,List.nil_subset _,fun listens => nomatch listens⟩

theorem idleMeets (table : List Bound) (port : Option Int) : Meets table port idle := ⟨rfl,fun listens => nomatch listens⟩

namespace Rendezvous

theorem tableRange {p : Int} (low : 3 ≤ p) (high : p ≤ 65533) : InRange (placed table p) := by
  intro l member
  simp only [placed,table,List.map_cons,List.map_nil,List.mem_cons,List.not_mem_nil,or_false] at member
  rcases member with rfl | rfl | rfl | rfl <;> dsimp only <;> omega

section Start
variable {h : Host} {bindAddr : Option IpAddr} {p : Int} {got : List Bound}

theorem natPlaced : ((.tcp,p + -1) : Bound) ∈ placed table p := List.mem_map.mpr ⟨(.tcp,-1),by decide,rfl⟩
theorem udpPlaced : ((.udp,p) : Bound) ∈ placed table p := List.mem_map.mpr ⟨(.udp,0),by decide,by rw [Int.add_zero]⟩
theorem tcpPlaced : ((.tcp,p) : Bound) ∈ placed table p := List.mem_map.mpr ⟨(.tcp,0),by decide,by rw [Int.add_zero]⟩
theorem wsPlaced : ((.tcp,p + 2) : Bound) ∈ placed table p := List.mem_map.mpr ⟨(.tcp,2),by decide,rfl⟩

theorem restoreStage (range : InRange (placed table p)) (failure : LoopFailure) :
    Leads (Stage table p got) (restore h bindAddr ⟨p,p + -1,p + 2⟩ failure) (fun _ => Stage table p got)
      (Meets table (some p)) := by
  have again (l : Bound) (_ : Unit) (s : Startup) (stage : Stage table p (l :: got) s) : Stage table p got s :=
    stageLess (List.subset_cons_self _ _) stage
  cases failure with
  | udpSocket => exact leadsWeaken (stageUdp range udpPlaced) (fun _ stage => stage) (again _) fun _ ended => ended
  | listener3 => exact leadsWeaken (stageTcp range wsPlaced) (fun _ stage => stage) (again _) fun _ ended => ended
  | listener2 => exact leadsWeaken (stageTcp range natPlaced) (fun _ stage => stage) (again _) fun _ ended => ended
  | listener => exact leadsWeaken (stageTcp range tcpPlaced) (fun _ stage => stage) (again _) fun _ ended => ended
  | consoleListener =>
    refine leadsThen (castFits (inRangeFits range natPlaced)) ?_
    intro m s both
    obtain ⟨rfl,stage⟩ := both
    exact stageConsole range natPlaced s stage

theorem startStage (low : 3 ≤ p) (high : p ≤ 65533) (failures : List LoopFailure) :
    Leads (· = idle) (startWithBind h bindAddr p failures) (fun _ s => ∃ got, Stage table p got s)
      (Meets table (some p)) := by
  have range := tableRange low high
  unfold startWithBind
  split
  · refine leadsThen (addFits (P := (· = idle)) (fitsBounds.mpr (by dsimp only [i32]; omega))) ?_
    intro natPort s both
    obtain ⟨rfl,fresh⟩ := both
    refine leadsThen (addFits (P := (· = idle)) (fitsBounds.mpr (by dsimp only [i32]; omega))) ?_ s fresh
    intro wsPort s both
    obtain ⟨rfl,rfl⟩ := both
    split
    · refine leadsThen (stageUdp range udpPlaced) ?_ idle (idleStage table p)
      intro _
      refine leadsThen (stageTcp range tcpPlaced) ?_
      intro _
      refine leadsThen (stageTcp range natPlaced) ?_
      intro _
      refine leadsThen (stageTcp range wsPlaced) ?_
      intro _
      refine leadsThen (castFits (inRangeFits range natPlaced)) ?_
      intro console s both
      obtain ⟨rfl,stage⟩ := both
      refine leadsThen (stageConsole range natPlaced) ?_ s stage
      intro _
      refine leadsThen (stageAnnounce ?_) ?_
      · intro l member
        simp only [placed,table,List.map_cons,List.map_nil,List.mem_cons,List.not_mem_nil,or_false,Int.add_zero] at member ⊢
        tauto
      · intro _
        exact leadsWeaken (leadsEach (fun failure => restoreStage range failure) failures) (fun _ stage => stage)
          (fun _ _ stage => ⟨_,stage⟩) fun _ ended => ended
    · exact leadsFinish (P := (· = idle)) (fun _ fresh => fresh ▸ idleMeets table (some p)) idle rfl
  · exact leadsFinish fun _ fresh => fresh ▸ idleMeets table (some p)

end Start

theorem fitsLeads {port : Option String} (fits : Fits port) (h : Host) (failures : List LoopFailure) :
    Leads (· = idle) (main h port failures) (fun _ => Meets table (configured port)) (Meets table (configured port)) := by
  refine leadsThen (leadsBail fun _ _ fresh => fresh ▸ idleMeets table _) ?_
  intro p s both
  obtain ⟨parsed,fresh⟩ := both
  rw [show configured port = some p from (parseValue parsed).1]
  dsimp only
  split
  · exact leadsFinish (P := (· = idle)) (fun _ fresh => fresh ▸ idleMeets table _) s fresh
  · rename_i least
    have range := tableRange (by omega) (fits p parsed)
    refine leadsThen (leadsBail (P := (· = idle)) fun _ _ fresh => fresh ▸ idleMeets table _) ?_ s fresh
    intro bindAddr s both
    exact leadsWeaken (startStage (by omega) (fits p parsed) failures) (fun _ fresh => fresh)
      (fun _ _ stage => stageMeets range stage.choose_spec) (fun _ ended => ended) s both.2

end Rendezvous

namespace Relay

theorem tableRange {p : Int} (low : 1 ≤ p) (high : p ≤ 65533) : InRange (placed table p) := by
  intro l member
  simp only [placed,table,List.map_cons,List.map_nil,List.mem_cons,List.not_mem_nil,or_false] at member
  rcases member with rfl | rfl <;> dsimp only <;> omega

section Start
variable {h : Host} {bindAddr : Option IpAddr} {p : Int}

theorem tcpPlaced : ((.tcp,p) : Bound) ∈ placed table p := List.mem_map.mpr ⟨(.tcp,0),by decide,by rw [Int.add_zero]⟩
theorem wsPlaced : ((.tcp,p + 2) : Bound) ∈ placed table p := List.mem_map.mpr ⟨(.tcp,2),by decide,rfl⟩

theorem roundStage (range : InRange (placed table p)) :
    Leads (Stage table p []) (round h bindAddr p (p + 2)) (fun _ => Stage table p []) (Meets table (some p)) := by
  refine leadsThen (stageListen range (l := ⟨.tcp,bindAddr,p⟩) tcpPlaced) ?_
  intro _
  refine leadsThen (stageListen range (l := ⟨.tcp,bindAddr,p + 2⟩) wsPlaced) ?_
  intro _
  refine leadsThen (stageConsole range tcpPlaced) ?_
  intro _
  refine leadsWeaken (stageAnnounce ?_) (fun _ stage => stage) (fun _ _ stage => stageLess (List.nil_subset _) stage)
    fun _ ended => ended
  intro l member
  simp only [placed,table,List.map_cons,List.map_nil,List.mem_cons,List.not_mem_nil,or_false,Int.add_zero] at member ⊢
  tauto

/- A text that is no port ends the start; any other has been settled on as the documented port. -/
theorem startMeets {port : Option Int} {text : String}
    (settled : ∀ p, u16.parse text = some p → port = some p ∧ 1 ≤ p ∧ p ≤ 65533) (rounds : Nat) :
    Leads (· = idle) (startWithBind h bindAddr text rounds) (fun _ => Meets table port) (Meets table port) := by
  have refuses (e : Ending) : Leads (· = idle) (finish e) (fun (_ : Unit) => Meets table port) (Meets table port) :=
    leadsFinish fun _ fresh => fresh ▸ idleMeets table port
  unfold startWithBind
  split
  · split
    · refine leadsThen (leadsBail fun _ _ fresh => fresh ▸ idleMeets table _) ?_
      intro p s both
      obtain ⟨parsed,fresh⟩ := both
      obtain ⟨rfl,low,high⟩ := settled p parsed
      have range := tableRange low high
      refine leadsThen (addFits (P := (· = idle)) (fitsBounds.mpr (by dsimp only [u16]; omega))) ?_ s fresh
      intro port2 s both
      obtain ⟨rfl,fresh⟩ := both
      exact leadsWeaken (leadsEach (fun _ => roundStage range) _)
        (fun (s : Startup) (fresh : s = idle) => fresh ▸ idleStage table p) (fun _ _ stage => stageMeets range stage)
          (fun _ ended => ended) s fresh
    · exact refuses .bailed
  · exact refuses .exited

end Start

/- The port the environment leads to, when no addition leaves its type. -/
def environmentValue (inherited : Option String) : Int :=
  match inherited with
  | some v => if (i32.parse v).getD 0 > 0 then (i32.parse v).getD 0 + 1 else defaultPort
  | none => defaultPort

theorem environmentFits {inherited : Option String} (small : ∀ v, inherited = some v → i32.parse v ≠ some 2147483647)
    {h : Host} {P E : Startup → Prop} :
    Leads P (environmentPort h inherited) (fun m s => m = environmentValue inherited ∧ P s) E := by
  unfold environmentPort environmentValue
  cases inherited with
  | none => exact leadsValue fun _ holds => ⟨rfl,holds⟩
  | some v =>
    dsimp only
    split
    · rename_i positive
      refine addFits (fitsBounds.mpr ?_)
      cases parsed : i32.parse v with
      | none => rw [parsed] at positive; exact absurd positive (by decide)
      | some n =>
        have bounds := fitsBounds.mp (parseValue parsed).2
        have other : n ≠ 2147483647 := fun same => small v rfl (same ▸ parsed)
        rw [parsed] at positive
        dsimp only [i32,Option.getD_some] at *
        omega
    · exact leadsValue fun _ holds => ⟨rfl,holds⟩

theorem settledPort {flag inherited : Option String} (fits : Fits flag inherited) {p : Int}
    (parsed : u16.parse (flag.getD (toString (environmentValue inherited))) = some p) :
    configured flag inherited = some p ∧ 1 ≤ p ∧ p ≤ 65533 := by
  cases flag with
  | some f => exact ⟨(parseValue parsed).1,fits.2 p parsed⟩
  | none =>
    dsimp only [Option.getD_none] at parsed
    rw [parseText] at parsed
    split at parsed
    · rename_i within
      cases Option.some.inj parsed
      cases inherited with
      | none => exact ⟨rfl,by decide,by decide⟩
      | some v =>
        obtain ⟨n,value,positive,bounds⟩ := fits.2 v rfl
        have port : environmentValue (some v) = n + 1 := by
          rw [environmentValue,value,Option.getD_some,if_pos positive]
        have most := (fitsBounds.mp within).2
        rw [port] at most ⊢
        dsimp only [u16] at most
        refine ⟨?_,by omega,by omega⟩
        rw [configured,(parseValue value).1,Option.map_some]
    · cases parsed

theorem fitsLeads {flag inherited : Option String} (fits : Fits flag inherited) (h : Host) (rounds : Nat) :
    Leads (· = idle) (main h flag inherited rounds) (fun _ => Meets table (configured flag inherited))
      (Meets table (configured flag inherited)) := by
  refine leadsThen (environmentFits fits.1) ?_
  intro m s both
  obtain ⟨rfl,fresh⟩ := both
  refine leadsThen (leadsBail (P := (· = idle)) fun _ _ fresh => fresh ▸ idleMeets table _) ?_ s fresh
  intro bindAddr s both
  exact startMeets (fun p parsed => settledPort fits parsed) rounds s both.2

end Relay

/- A release build on a system that grants every listener, a free port where none is named. -/
def granting : Host where
  overflowChecks := false
  bindAddr := some none
  keyed := true
  stored := true
  grants _ l := some (if l.port = 0 then 40000 else l.port)
  kept := by
    intro n l q real granted
    rw [if_neg real] at granted
    exact (Option.some.inj granted).symm

/- Unless a number has left its type, `c` holds. -/
def Lost (c : Prop) (s : Startup) : Prop := c ∨ s.exact = false

section Losses
variable {c : Prop} {E : Startup → Prop}

theorem lostLess {d : Prop} (less : c → d) {s : Startup} (lost : Lost c s) : Lost d s := lost.imp_left less

theorem castLost {n : Int} : Leads (Lost c) (cast n) (fun m => Lost (c ∧ m = n ∧ u16.fits n = true)) E := by
  unfold cast
  split
  · rename_i fits
    exact leadsValue fun _ lost => lostLess (fun holds => ⟨holds,rfl,fits⟩) lost
  · exact leadsThen (leadsUpdate (Q := fun _ s => s.exact = false) fun _ _ => rfl) fun _ => leadsValue fun _ lost => .inr lost

theorem addLost {w : Width} {a b : Int} :
    Leads (Lost c) (add granting w a b) (fun m => Lost (c ∧ m = a + b ∧ w.fits (a + b) = true)) E := by
  unfold add
  split
  · rename_i fits
    exact leadsValue fun _ lost => lostLess (fun holds => ⟨holds,rfl,fits⟩) lost
  · exact leadsThen (leadsUpdate (Q := fun _ s => s.exact = false) fun _ _ => rfl) fun _ => leadsValue fun _ lost => .inr lost

theorem askLost {l : Listener} : Leads (Lost c) (ask granting l) (fun granted s => granted = true ∧ Lost c s) E := by
  intro s lost
  refine ⟨?_,fun _ _ ran => by cases ran⟩
  intro granted s' ran
  cases ran
  exact ⟨rfl,lost⟩

theorem listenLost {l : Listener} : Leads (Lost c) (listen granting l) (fun _ => Lost c) E := by
  refine leadsThen askLost ?_
  intro granted
  cases granted
  · exact leadsFinish fun _ both => nomatch both.1
  · exact leadsValue fun _ both => both.2

theorem udpLost {port : Int} : Leads (Lost c) (createUdpListener granting none port) (fun _ => Lost c) E := by
  refine leadsThen (leadsWeaken castLost (fun _ lost => lost) (fun _ _ lost => lostLess And.left lost) fun _ ended => ended) ?_
  intro m
  refine leadsThen askLost ?_
  intro granted
  cases granted
  · exact fun _ both => nomatch both.1
  · exact leadsValue fun _ both => both.2

theorem tcpLost {port : Int} :
    Leads (Lost c) (createTcpListener granting none port) (fun _ => Lost (c ∧ u16.fits port = true)) E :=
  leadsThen castLost fun _ => leadsWeaken listenLost (fun _ lost => lost)
    (fun _ _ lost => lostLess (fun holds => ⟨holds.1,holds.2.2⟩) lost) fun _ ended => ended

theorem consoleLost {port : Int} : Leads (Lost c) (listenConsole granting none port) (fun _ => Lost c) E :=
  leadsValue fun _ lost => lost

theorem announceLost : Leads (Lost c) announce (fun _ => Lost c) E := leadsUpdate fun _ lost => lost

end Losses

/- The WebSocket port of a start that keeps within the types is a port. -/
theorem Rendezvous.startLost {p : Int} {E : Startup → Prop} :
    Leads (· = idle) (startWithBind granting none p []) (fun _ => Lost (p ≤ 65533)) E := by
  refine leadsThen (leadsWeaken addLost (fun _ _ => .inl trivial) (fun _ _ lost => lost) fun _ ended => ended) ?_
  intro natPort
  refine leadsThen addLost ?_
  intro wsPort
  refine leadsThen udpLost ?_
  intro _
  refine leadsThen tcpLost ?_
  intro _
  refine leadsThen tcpLost ?_
  intro _
  refine leadsThen tcpLost ?_
  intro _
  refine leadsThen castLost ?_
  intro console
  refine leadsThen consoleLost ?_
  intro _
  refine leadsThen announceLost ?_
  intro _
  refine leadsValue fun _ lost => lostLess ?_ lost
  rintro ⟨⟨⟨⟨⟨_,rfl,_⟩,_⟩,_⟩,fits⟩,_⟩
  have most := (fitsBounds.mp fits).2
  dsimp only [u16] at most
  omega

theorem Rendezvous.meetsFits {port : Option String}
    (meets : ∀ h failures, Meets table (configured port) (main h port failures idle).2) : Fits port := by
  intro p parsed
  have leads : Leads (· = idle) (main granting port []) (fun _ => Lost (p ≤ 65533)) (Lost (p ≤ 65533)) := by
    refine leadsThen (leadsBail fun none => by cases none.symm.trans parsed) ?_
    intro n s both
    obtain ⟨same,fresh⟩ := both
    cases same.symm.trans parsed
    split
    · rename_i small
      exact leadsFinish (P := (· = idle)) (fun _ _ => .inl (by omega)) s fresh
    · refine leadsThen (leadsBail (P := (· = idle)) (o := granting.bindAddr) fun none => nomatch none) ?_ s fresh
      intro bindAddr s both
      cases both.1
      exact startLost s both.2
  rcases leadsState leads (s := idle) rfl with most | lost
  · exact most
  · rw [(meets granting []).1] at lost
    cases lost


namespace Relay

/- The settings with which no addition of the relay leaves its type. -/
structure Exact (flag inherited : Option String) : Prop where
  environment : ∀ v, inherited = some v → i32.parse v ≠ some 2147483647
  relay : ∀ p, u16.parse (flag.getD (toString (environmentValue inherited))) = some p → p ≤ 65533

theorem environmentLost {inherited : Option String} {E : Startup → Prop} :
    Leads (· = idle) (environmentPort granting inherited)
      (fun m => Lost (m = environmentValue inherited ∧ ∀ v, inherited = some v → i32.parse v ≠ some 2147483647)) E := by
  unfold environmentPort environmentValue
  cases inherited with
  | none => exact leadsValue fun _ _ => .inl ⟨rfl,fun _ none => nomatch none⟩
  | some v =>
    dsimp only
    split
    · refine leadsWeaken addLost (fun _ _ => .inl trivial) (fun m _ lost => lostLess ?_ lost) fun _ ended => ended
      rintro ⟨_,rfl,fits⟩
      refine ⟨rfl,?_⟩
      intro v' same most
      cases same
      rw [most] at fits
      exact absurd fits (by decide)
    · rename_i small
      refine leadsValue fun _ _ => .inl ⟨rfl,?_⟩
      intro v' same most
      cases same
      rw [most] at small
      exact absurd (by decide) small

theorem startLost {c : Prop} (text : String) (rounds : Nat) :
    Leads (Lost c) (startWithBind granting none text rounds)
      (fun _ => Lost (c ∧ ∀ p, u16.parse text = some p → p ≤ 65533)) (Lost (c ∧ ∀ p, u16.parse text = some p → p ≤ 65533)) := by
  refine leadsThen (leadsBail fun refused _ lost => lostLess ?_ lost) ?_
  · exact fun holds => ⟨holds,fun p parsed => nomatch refused.symm.trans parsed⟩
  · intro p s both
    obtain ⟨parsed,lost⟩ := both
    refine leadsThen (leadsWeaken addLost (fun _ lost => lost) (fun _ _ lost => lostLess ?_ lost) fun _ ended => ended)
      (fun port2 => leadsEach (fun _ => ?_) _) s lost
    · rintro ⟨holds,_,fits⟩
      refine ⟨holds,?_⟩
      intro q parsed'
      cases parsed.symm.trans parsed'
      have most := (fitsBounds.mp fits).2
      dsimp only [u16] at most
      omega
    · exact leadsThen listenLost fun _ => leadsThen listenLost fun _ => leadsThen consoleLost fun _ => announceLost

theorem mainLost (flag inherited : Option String) (rounds : Nat) :
    Leads (· = idle) (main granting flag inherited rounds) (fun _ => Lost (Exact flag inherited))
      (Lost (Exact flag inherited)) := by
  refine leadsThen environmentLost ?_
  intro m
  refine leadsThen (leadsBail (o := granting.bindAddr) fun none => nomatch none) ?_
  intro bindAddr s both
  obtain ⟨same,lost⟩ := both
  cases same
  have exact {s : Startup} (lost : Lost ((m = environmentValue inherited ∧
      ∀ v, inherited = some v → i32.parse v ≠ some 2147483647) ∧
      ∀ p, u16.parse (flag.getD (toString m)) = some p → p ≤ 65533) s) : Lost (Exact flag inherited) s :=
    lostLess (fun ⟨⟨same,environment⟩,relay⟩ => ⟨environment,same ▸ relay⟩) lost
  exact leadsWeaken (startLost _ rounds) (fun _ lost => lost) (fun _ _ => exact) (fun _ => exact) s lost

theorem listenGot (l : Listener) {E : Startup → Prop} :
    Leads (fun _ => True) (listen granting l) (fun _ s => l.port ≠ 0 → (l.protocol,l.port) ∈ s.bound) E := by
  intro s _
  refine ⟨?_,fun _ _ ran => by cases ran⟩
  intro _ s' ran
  cases ran
  intro real
  dsimp only [granting]
  rw [if_neg real]
  exact List.mem_append_right _ (List.mem_singleton.mpr rfl)

theorem listenKept (l : Listener) {c : Prop} {b : Bound} {E : Startup → Prop} :
    Leads (fun s => c → b ∈ s.bound) (listen granting l) (fun _ s => c → b ∈ s.bound) E := by
  intro s bound
  refine ⟨?_,fun _ _ ran => by cases ran⟩
  intro _ s' ran
  cases ran
  exact fun holds => List.mem_append_left _ (bound holds)

/- In one granted round the relay comes to listen, on its port among others. -/
theorem mainListens {flag inherited : Option String} {p : Int} (small : ∀ v, inherited = some v → i32.parse v ≠ some 2147483647)
    (parsed : u16.parse (flag.getD (toString (environmentValue inherited))) = some p) :
    (main granting flag inherited 1 idle).2.listening = true ∧
    (p ≠ 0 → (.tcp,p) ∈ (main granting flag inherited 1 idle).2.bound) := by
  refine leadsState (P := fun _ => True) (E := fun s : Startup => s.listening = true ∧ (p ≠ 0 → (.tcp,p) ∈ s.bound)) ?_ trivial
  refine leadsThen (environmentFits small) ?_
  intro m s both
  obtain ⟨rfl,_⟩ := both
  refine leadsThen (leadsBail (P := fun _ => True) (o := granting.bindAddr) fun none => nomatch none) ?_ s trivial
  intro bindAddr s both
  cases both.1
  refine leadsThen (leadsBail (P := fun _ => True) fun refused => nomatch refused.symm.trans parsed) ?_ s trivial
  intro q s both
  cases parsed.symm.trans both.1
  refine leadsThen (P := fun _ => True) (Q := fun _ _ => True) ?_ (fun port2 => ?_) s trivial
  · unfold add
    split
    · exact leadsValue fun _ _ => trivial
    · exact leadsThen (leadsUpdate (Q := fun _ _ => True) fun _ _ => trivial) fun _ => leadsValue fun _ _ => trivial
  · refine leadsThen ?_ fun _ => leadsValue fun _ holds => holds
    refine leadsThen (listenGot ⟨.tcp,none,p⟩) fun _ => leadsThen (listenKept _) fun _ => ?_
    exact leadsThen (leadsValue fun _ bound => bound) fun _ => leadsUpdate fun _ bound => ⟨rfl,bound⟩

theorem defaultParses : u16.parse (toString defaultPort) = some defaultPort := by
  rw [parseText]
  rfl

/- An unusable value of the environment leaves the relay on its default port, which no value names there. -/
theorem unusable {v : String} (low : (i32.parse v).getD 0 ≤ 0)
    (meets : Meets table (configured none (some v)) (main granting none (some v) 1 idle).2) : False := by
  have port : environmentValue (some v) = defaultPort := if_neg (by omega)
  have small : ∀ v', some v = some v' → i32.parse v' ≠ some 2147483647 := by
    intro v' same most
    cases same
    rw [most] at low
    exact absurd low (by decide)
  obtain ⟨listens,bound⟩ := @mainListens none _ _ small (by rw [port]; exact defaultParses)
  obtain ⟨k,named,_,exactly⟩ := meets.2 listens
  have place := (exactly _).mp (bound (by decide))
  obtain ⟨n,value,next⟩ := Option.map_eq_some_iff.mp named
  have near : n = 21116 ∨ n = 21114 := by
    simp only [placed,table,List.map_cons,List.map_nil,List.mem_cons,List.not_mem_nil,or_false,Prod.mk.injEq,true_and,
      defaultPort] at place
    omega
  have parsed : i32.parse v = some n := by
    refine parseNumeral (by decide) value ?_
    rcases near with rfl | rfl <;> rfl
  rw [parsed,Option.getD_some] at low
  omega

theorem meetsFits {flag inherited : Option String}
    (meets : ∀ h rounds, Meets table (configured flag inherited) (main h flag inherited rounds idle).2) :
      Fits flag inherited := by
  have settled : Exact flag inherited := by
    rcases leadsState (mainLost flag inherited 1) (s := idle) rfl with holds | lost
    · exact holds
    · rw [(meets granting 1).1] at lost
      cases lost
  refine ⟨settled.environment,?_⟩
  cases flag with
  | some f =>
    intro p parsed
    obtain ⟨listens,_⟩ := @mainListens (some f) _ _ settled.environment parsed
    obtain ⟨k,named,range,_⟩ := (meets granting 1).2 listens
    cases named.symm.trans (parseValue parsed).1
    exact ⟨(range _ tcpPlaced).1,settled.relay p parsed⟩
  | none =>
    intro v given
    cases given
    cases parsed : i32.parse v with
    | none => exact (unusable (by rw [parsed]; decide) (meets granting 1)).elim
    | some n =>
      by_cases positive : 0 < n
      · refine ⟨n,rfl,positive,?_⟩
        have port : environmentValue (some v) = n + 1 := by
          rw [environmentValue,parsed,Option.getD_some,if_pos positive]
        by_cases most : n + 1 ≤ 65535
        · have fits : u16.fits (n + 1) = true := fitsBounds.mpr ⟨by dsimp only [u16]; omega,most⟩
          have := settled.relay (n + 1) (by rw [Option.getD_none,port,parseText,if_pos fits])
          omega
        · omega
      · exact (unusable (by rw [parsed]; exact Int.not_lt.mp positive) (meets granting 1)).elim

end Relay

/- On every system either server refuses to start or listens on exactly its documented ports, with every
number inside its type, just when its settings fit. -/
theorem documentedPorts (port flag inherited : Option String) :
    ((∀ h failures, Meets Rendezvous.table (Rendezvous.configured port) (Rendezvous.main h port failures idle).2) ↔
      Rendezvous.Fits port) ∧
    ((∀ h rounds, Meets Relay.table (Relay.configured flag inherited) (Relay.main h flag inherited rounds idle).2) ↔
      Relay.Fits flag inherited) := by
  refine ⟨⟨Rendezvous.meetsFits,?_⟩,⟨Relay.meetsFits,?_⟩⟩
  · intro fits h failures
    exact leadsState (Rendezvous.fitsLeads fits h failures) rfl
  · intro fits h rounds
    exact leadsState (Relay.fitsLeads fits h rounds) rfl

/- `hbbs -p 86652` serves the ports of 21116, and the second port of `hbbr -p 65534` is whatever is free. -/
theorem strayPorts :
    (Rendezvous.main granting (some "86652") [] idle).2 =
      ⟨false,4,[(.udp,21116),(.tcp,21116),(.tcp,21115),(.tcp,21118)],true⟩ ∧
    ¬ Meets Rendezvous.table (Rendezvous.configured (some "86652")) (Rendezvous.main granting (some "86652") [] idle).2 ∧
    (Relay.main granting (some "65534") none 1 idle).2 = ⟨false,2,[(.tcp,65534),(.tcp,40000)],true⟩ ∧
    ¬ Meets Relay.table (Relay.configured (some "65534") none) (Relay.main granting (some "65534") none 1 idle).2 :=
  ⟨by decide +kernel,fun meets => absurd meets.1 (by decide +kernel),by decide +kernel,
    fun meets => absurd meets.1 (by decide +kernel)⟩

end OpenuuServer.ListeningPorts
