import OpenuuServer.Obligations
import OpenuuServer.RelayTimers

/-! What stays behind in PEERS. Whoever parks a stream removes the entry of its uuid half a minute later;
so PEERS holds nothing that is not going to be removed, and once nothing moves any more every entry
is one of the last half minute. -/
namespace OpenuuServer.RelayLeaks
open AtomicProgram RelayPairing RelayTimers Obligations

def timer (uuid : String) : Debt Op Resp where
  incurs o := ∃ stream, o = .park uuid stream
  frees o := o = .expire uuid
  breaks _ := False
  fits _ := True
  mayEnd := False

/- No task can do anything before time goes on. -/
def Still (w : World) : Prop := ∀ i o, w.next i = some o → ∃ deadline, o = .sleepUntil deadline ∧ w.shared.now < deadline

/- Every entry of PEERS is going to be removed by a task that is under way; while all wait, it is an
entry of the last half minute. -/
structure Kept (w : World) : Prop where
  removed : ∀ uuid stream, w.shared.peers.lookup uuid = some stream →
    ∃ (i : Nat) (t : Task Op Resp Call Unit), w.tasks[i]? = some t ∧ w.Running i ∧ (timer uuid).Owed t.prog
  recent : Still w → ∀ uuid stream, w.shared.peers.lookup uuid = some stream →
    ∃ e ∈ w.log, e.did.1 = .clock ∧ w.shared.now < e.before.now + 30000

section Runs
variable {key : String} {ok : World → Act Call Nat → Prop} {s : State} {w : World}

end Runs

end OpenuuServer.RelayLeaks
