import OpenuuServer.Bitmap
import OpenuuServer.PeerOnline
import Mathlib.Data.Nat.Bitwise
import Mathlib.Tactic.IntervalCases

/-! The answer to an online query: one bit for each id in the order asked. The bits are set in a buffer
of zeros while the peers are looked up one after the other. -/
namespace OpenuuServer.OnlineAnswer
open AtomicProgram RendezvousMessages RendezvousServer RendezvousRuns Bitmap
open PeerRegistry (SocketAddr LockPeer Registry)
open PeerOnline (regTimeout)

/- The loop of `handle_online_request` from position `i` on; `none` is an index outside the buffer. -/
def markOnline (i : Nat) : List String → List UInt8 → Prog Op Resp (Option (List UInt8))
  | [],states => return some states
  | id :: rest,states => do
    let peer ← registry (PeerRegistry.act (.mapRead id))
    match peer with
    | some peer =>
      let (elapsed,_) ← (act (.lastSeen peer) : Prog Op Resp (Nat × SocketAddr))
      if elapsed < 30000 then
        match mark states i with
        | some states => markOnline (i + 1) rest states
        | none => return none
      else markOnline (i + 1) rest states
    | none => markOnline (i + 1) rest states

def answerStates (peers : List String) : Prog Op Resp (Option (List UInt8)) := markOnline 0 peers (blank peers.length)

/- Whether the id is in memory with a registration younger than the timeout. -/
def seenLately (s : Server) (id : String) : Bool :=
  match s.registry.map.lookup id with
  | some ref => decide (s.registry.now - (s.registry.peer ref).lastRegTime < regTimeout)
  | none => false

/- What a reader makes of the bytes. -/
structure Recovers (s : Server) (peers : List String) (states : List UInt8) : Prop where
  length : states.length = (peers.length + 7) / 8
  bits : ∀ (i : Nat) id, peers[i]? = some id → lit states i = some (seenLately s id)
  rest : ∀ i, peers.length ≤ i → i < 8 * states.length → lit states i = some false

theorem fillCons (i : Nat) (flag : Bool) (rest : List Bool) (states : List UInt8) :
    fill i (flag :: rest) states = (if flag then mark states i else some states).bind (fill (i + 1) rest) := by
  cases flag <;> rfl

/- Within the buffer the loop asks for the peers in order and fills in the answers. -/
theorem markFills {i : Nat} {peers : List String} {states : List UInt8} (room : i + peers.length ≤ 8 * states.length) :
    markOnline i peers states = (fun online => fill i online states) <$> onlineList peers := by
  induction peers generalizing i states with
  | nil => rfl
  | cons id rest ih =>
    rw [List.length_cons] at room
    have later : ∀ (flag : Bool) (after : List UInt8), (if flag then mark states i else some states) = some after →
        after.length = states.length → markOnline (i + 1) rest after =
          (fun online => fill i online states) <$> (onlineList rest >>= fun others =>
            (.ret (flag :: others) : Prog Op Resp (List Bool))) := by
      intro flag after made length
      rw [ih (by omega),map_bind]
      simp only [mapRet,fillCons,made,Option.bind_some]
      rfl
    unfold markOnline onlineList
    refine congrArg (Prog.op _) (funext fun peer => ?_)
    cases (peer : Option LockPeer) with
    | none => exact later false states rfl rfl
    | some peer =>
      refine congrArg (Prog.op _) (funext fun seen => ?_)
      change (if seen.1 < 30000 then match mark states i with
        | some states => markOnline (i + 1) rest states
        | none => .ret none
        else markOnline (i + 1) rest states) = _
      by_cases recent : seen.1 < 30000
      · obtain ⟨after,marked,length⟩ := @markInside states i (by omega)
        have rested := later (decide (seen.1 < 30000)) after (by rw [if_pos (decide_eq_true recent),marked]) length
        rw [if_pos recent,marked]
        exact rested
      · have rested := later (decide (seen.1 < 30000)) states (by rw [if_neg (by simpa using recent)]) rfl
        rw [if_neg recent]
        exact rested

theorem onlineListRun (lib : Library) (expired : Nat → Nat) (peers : List String) (s : Server) :
    (onlineList peers).run (exec lib expired) s = (peers.map (seenLately s),s) := by
  induction peers with
  | nil => rfl
  | cons id rest ih =>
    simp only [onlineList,act,runBind,registryRun,PeerRegistry.act,performIs,Prog.run,PeerRegistry.exec]
    have timely : ∀ since, decide ((s.registry.now - since) / 1000000 < 30000) =
        decide (s.registry.now - since < regTimeout) := by
      intro since
      unfold regTimeout
      exact decide_eq_decide.mpr (by omega)
    cases there : s.registry.map.lookup id with
    | none => simp only [runBind,pureIsRet,Prog.run,ih,List.map_cons,seenLately,there]
    | some ref =>
      simp only [bindOp,bindRet,Prog.run,exec,runBind,pureIsRet,ih,List.map_cons,seenLately,there]
      exact congrArg (fun online => (online :: rest.map (seenLately s),s)) (timely _)

/- For every list of ids and every registry the index stays inside the buffer, and the reader gets back
who is online. -/
theorem answerRecovers (lib : Library) (expired : Nat → Nat) (s : Server) (peers : List String) :
    ∃ states, (answerStates peers).run (exec lib expired) s = (some states,s) ∧ Recovers s peers states := by
  have room : 0 + peers.length ≤ 8 * (blank peers.length).length := by
    unfold blank
    rw [List.length_replicate]
    omega
  obtain ⟨states,filled,length,bits⟩ := @fillSets (peers.map (seenLately s)) 0
    (blank peers.length) (by rwa [List.length_map])
  have size : states.length = (peers.length + 7) / 8 := by rw [length,blank,List.length_replicate]
  refine ⟨states,?_,size,fun i id there => ?_,fun i after inside => ?_⟩
  · rw [answerStates,markFills room,← bind_pure_comp,runBind,onlineListRun]
    simp only [pureIsRet,Prog.run,filled]
  · have less : i < peers.length := (List.getElem?_eq_some_iff.mp there).1
    rw [bits i,Nat.sub_zero,List.getElem?_map,there,Option.map_some]
    cases seen : seenLately s id with
    | true => rw [if_pos ⟨Nat.zero_le i,rfl⟩]
    | false =>
      rw [if_neg (fun both => by cases both.2)]
      exact litBlank (by omega)
  · have outside : (peers.map (seenLately s))[i]? = none := List.getElem?_eq_none (by rwa [List.length_map])
    rw [bits i,Nat.sub_zero,outside,if_neg (fun both => by cases both.2)]
    exact litBlank (by rwa [← length])

section Served

/- One byte as the sum of the bits that are set. -/
def byteOf (flags : Nat → Bool) : Nat := ((List.range 8).map fun bit => if flags bit then 2 ^ (7 - bit) else 0).sum

theorem byteOfList (flags : Nat → Bool) :
    byteOf flags = byteOf fun bit => [flags 0,flags 1,flags 2,flags 3,flags 4,flags 5,flags 6,flags 7].getD bit false := by
  have same : ∀ bit < 8, [flags 0,flags 1,flags 2,flags 3,flags 4,flags 5,flags 6,flags 7].getD bit false = flags bit := by
    intro bit less
    interval_cases bit <;> rfl
  refine congrArg List.sum (List.map_congr_left fun bit inside => ?_)
  simp only [same bit (List.mem_range.mp inside)]

theorem byteOfLess (flags : Nat → Bool) : byteOf flags < 256 := by
  have all : ∀ a b c d e f g h : Bool, byteOf (fun bit => [a,b,c,d,e,f,g,h].getD bit false) < 256 := by decide +kernel
  rw [byteOfList]
  exact all _ _ _ _ _ _ _ _

theorem byteBit (flags : Nat → Bool) {bit : Nat} (less : bit < 8) : (byteOf flags).testBit (7 - bit) = flags bit := by
  have all : ∀ a b c d e f g h : Bool, ∀ bit < 8, (byteOf fun bit => [a,b,c,d,e,f,g,h].getD bit false).testBit (7 - bit) =
      [a,b,c,d,e,f,g,h].getD bit false := by decide +kernel
  rw [byteOfList,all _ _ _ _ _ _ _ _ bit less]
  interval_cases bit <;> rfl

theorem maskTest (byte : UInt8) (i : Nat) : byte &&& mask i ≠ 0 ↔ byte.toNat.testBit (7 - i % 8) = true := by
  have power : ∀ k < 8, (mask k).toNat = 2 ^ (7 - k) := by decide
  have here := power (i % 8) (Nat.mod_lt i (by decide))
  rw [maskMod] at here
  rw [Ne,← UInt8.toNat_inj,UInt8.toNat_and,here,Nat.and_two_pow]
  cases byte.toNat.testBit (7 - i % 8) <;> simp

/- The bytes of the loop are those that the server sends. -/
theorem fillStates {online : List Bool} {states : List UInt8} (filled : fill 0 online (blank online.length) = some states) :
    states.map UInt8.toNat = onlineStates online := by
  have size : (blank online.length).length = (online.length + 7) / 8 := List.length_replicate
  obtain ⟨states',same,length,bits⟩ := @fillSets online 0 (blank online.length) (by omega)
  cases filled.symm.trans same
  refine List.ext_getElem (by simp [onlineStates,length,size]) fun k left right => ?_
  have inside : k < states.length := by simpa using left
  rw [List.getElem_map]
  have other : (onlineStates online)[k] = byteOf fun bit => online.getD (8 * k + bit) false := by simp [onlineStates,byteOf]
  rw [other]
  refine Nat.eq_of_testBit_eq fun t => ?_
  by_cases high : 8 ≤ t
  · have above : 2 ^ 8 ≤ 2 ^ t := Nat.pow_le_pow_right (by omega) high
    rw [Nat.testBit_lt_two_pow (Nat.lt_of_lt_of_le (UInt8.toNat_lt _) above),
      Nat.testBit_lt_two_pow (Nat.lt_of_lt_of_le (byteOfLess _) above)]
  · -- bit t belongs to the flag at position 8 k + (7 - t)
    obtain ⟨bit,less,rfl⟩ : ∃ bit < 8, t = 7 - bit := ⟨7 - t,by omega,by omega⟩
    have place : (8 * k + bit) / 8 = k ∧ (8 * k + bit) % 8 = bit := by omega
    rw [byteBit _ less]
    have read := bits (8 * k + bit)
    unfold lit at read
    rw [place.1,List.getElem?_eq_getElem inside,Option.map_some,Nat.sub_zero] at read
    have test := maskTest states[k] (8 * k + bit)
    rw [place.2] at test
    cases flag : online.getD (8 * k + bit) false with
    | true =>
      have set : online[8 * k + bit]? = some true := by
        rw [List.getD_eq_getElem?_getD] at flag
        cases there : online[8 * k + bit]? with
        | none => rw [there] at flag; cases flag
        | some value => rw [there] at flag; rw [show value = true from flag]
      rw [if_pos ⟨Nat.zero_le _,set⟩] at read
      exact test.mp (of_decide_eq_true (Option.some.inj read))
    | false =>
      have unset : ¬ online[8 * k + bit]? = some true := by
        intro set
        rw [List.getD_eq_getElem?_getD,set] at flag
        cases flag
      have start : lit (blank online.length) (8 * k + bit) = some false := litBlank (by omega)
      unfold lit at start
      rw [place.1] at start
      rw [if_neg fun both => unset both.2,start] at read
      rw [Bool.eq_false_iff]
      exact fun set => of_decide_eq_false (Option.some.inj read) (test.mpr set)

theorem onlineListLength (peers : List String) (done : List (Did Op Resp)) :
    (onlineList peers).Ends (fun _ online => online.length = peers.length) done := by
  induction peers generalizing done with
  | nil => exact rfl
  | cons id rest ih =>
    have later : ∀ (mine : Bool) (done : List (Did Op Resp)), (onlineList rest >>= fun others =>
        (.ret (mine :: others) : Prog Op Resp (List Bool))).Ends (fun _ online => online.length = (id :: rest).length) done :=
      fun mine done => endsBind.mpr (endsMono (fun _ _ length => congrArg (· + 1) length) (ih done))
    unfold onlineList
    intro peer
    cases (peer : Option LockPeer) with
    | none => exact later false _
    | some peer => exact fun seen => later _ _

/- What the server does is this loop and the sending of its bytes. -/
theorem servedAnswer (addr : SocketAddr) (peers : List String) : handleOnlineRequest addr peers = (do
    let states ← answerStates peers
    match states with
    | some states => act (.send (.stream addr) (.onlineResponse (states.map UInt8.toNat)))
    | none => return ()) := by
  have room : 0 + peers.length ≤ 8 * (blank peers.length).length := by
    unfold blank
    rw [List.length_replicate]
    omega
  unfold handleOnlineRequest answerStates
  rw [markFills room,bind_map_left]
  refine bindEnds (onlineListLength peers []) fun online length => ?_
  obtain ⟨states,filled,_⟩ := @fillSets online 0 (blank peers.length) (by rwa [length])
  rw [filled]
  dsimp only
  rw [fillStates (by rwa [length])]

end Served

example : fill 0 [false,false,false,false,false,false,false,false,false,true] (blank 10) = some [0,64] := by decide

end OpenuuServer.OnlineAnswer
