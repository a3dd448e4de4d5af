import Dataflow.Format.Facts
import Dataflow.Format.Machine
import Dataflow.Format.Program
import Dataflow.Format.Solver
import Dataflow.Proofs.Json.Codec

/-!
# The data format reads back

Every value of the data format is read back from its text (`format_roundTrips`): programs,
operations and constants, facts and environments of facts, machine states and values, and the
settings of solver and machine.  Strings and constants are arbitrary, and so are programs and
states: no edge has to lead anywhere and no clock has to fit its variables.  Ids and counters have
to be in the unsigned 64-bit range, and `Ranged` says of each type which of its parts those are.

Each type gets a `LawfulCodec`.  A variant is checked constructor by constructor.  A record of
several fields is read from any form that gives forms of its fields (`decode_of_fields`), so that
how the fields themselves are written does not enter.
-/

namespace Dataflow

open Codec (encode decode)
open Json (fields?_ofMembers record?_ofMembers)
open LawfulCodec (decode_encode)
open Ranged (InRange)

/-! ### Programs -/

instance : Ranged BinaryOp := .unrestricted

@[simp] theorem inRange_binaryOp (op : BinaryOp) : InRange op := trivial

instance : LawfulCodec BinaryOp where
  decode_encode {op} _ := by
    cases op <;> rfl

instance : Ranged Operation := .unrestricted

@[simp] theorem inRange_operation (o : Operation) : InRange o := trivial

instance : LawfulCodec Operation where
  decode_encode {o} _ := by
    cases o
    all_goals
      unfold instCodecOperation
      simp [Operation.toJson, Operation.ofJson?, Json.ofVariant, Json.variant?,
        fields?_ofMembers, decode_encode]

instance : Ranged Successors where
  InRange
    | .sequential targets => InRange targets
    | .branch onTrue onFalse => InRange onTrue ∧ InRange onFalse

@[simp] theorem inRange_sequential {targets : List Nat} :
    InRange (Successors.sequential targets) ↔ InRange targets := Iff.rfl

@[simp] theorem inRange_branch {onTrue onFalse : Option Nat} :
    InRange (Successors.branch onTrue onFalse) ↔ InRange onTrue ∧ InRange onFalse := Iff.rfl

instance : LawfulCodec Successors where
  decode_encode {s} h := by
    cases s with
    | sequential targets =>
      have htargets := decode_encode (inRange_sequential.1 h)
      unfold instCodecSuccessors
      simp [Json.ofVariant, Json.variant?, htargets]
    | branch onTrue onFalse =>
      have htrue := decode_encode h.1
      have hfalse := decode_encode h.2
      unfold instCodecSuccessors
      simp [Json.ofVariant, Json.variant?, record?_ofMembers, htrue, hfalse]

instance : Ranged Instruction where
  InRange i := InRange i.id ∧ InRange i.successors ∧ InRange i.predecessors

@[simp] theorem inRange_instruction {i : Instruction} :
    InRange i ↔ InRange i.id ∧ InRange i.successors ∧ InRange i.predecessors := Iff.rfl

theorem Instruction.decode_of_fields {i : Instruction}
    {j id operation successors predecessors : Json}
    (hfields : j.fields? ["id", "operation", "successors", "predecessors"] =
      some [id, operation, successors, predecessors])
    (hid : decode id = some i.id) (hoperation : decode operation = some i.operation)
    (hsuccessors : decode successors = some i.successors)
    (hpredecessors : decode predecessors = some i.predecessors) : decode j = some i := by
  unfold instCodecInstruction
  simp [hfields, hid, hoperation, hsuccessors, hpredecessors]

instance : LawfulCodec Instruction where
  decode_encode {i} h :=
    Instruction.decode_of_fields (fields?_ofMembers rfl (by decide)) (decode_encode h.1)
      (decode_encode (inRange_operation i.operation)) (decode_encode h.2.1) (decode_encode h.2.2)

instance : Ranged Program where
  InRange p := InRange p.instructions.toList

@[simp] theorem inRange_program {p : Program} : InRange p ↔ InRange p.instructions.toList :=
  Iff.rfl

instance : LawfulCodec Program where
  decode_encode {p} h := by
    have hinstructions := decode_encode (inRange_program.1 h)
    unfold instCodecProgram
    simp [fields?_ofMembers, hinstructions]

/-! ### Facts and environments -/

instance : Ranged Flat := .unrestricted

instance : LawfulCodec Flat where
  decode_encode {v} _ := by
    unfold instCodecFlat
    cases v <;> simp [Json.ofString, Json.ofVariant, Json.variant?, decode_encode]

instance : Ranged Definition where
  InRange d := InRange d.site

instance : LawfulCodec Definition where
  decode_encode {d} h := by
    have hpair : InRange (d.name, d.site) := ⟨trivial, h⟩
    unfold instCodecDefinition
    simp [decode_encode hpair]

instance : LawfulCodec DefinitionSet where
  decode_encode {s} h := by
    have hlist : InRange s.toList := h
    unfold instCodecDefinitionSet
    simp [fields?_ofMembers, decode_encode hlist, ofList_toList_set]

instance : LawfulCodec LocationSet where
  decode_encode {s} h := by
    have hlist : InRange s.toList := h
    unfold instCodecLocationSet
    simp [fields?_ofMembers, decode_encode hlist, ofList_toList_set]

instance : Ranged DominatorSet where
  InRange
    | .universal => True
    | .only ids => InRange ids

instance : LawfulCodec DominatorSet where
  decode_encode {s} h := by
    unfold instCodecDominatorSet
    cases s with
    | universal => rfl
    | only ids =>
      have hlist : InRange ids.toList := h
      simp [Json.ofVariant, Json.variant?, decode_encode hlist, ofList_toList_set]

instance {V : Type} [Codec V] [Ranged V] [LawfulCodec V] : LawfulCodec (Environment V) where
  decode_encode {env} h := by
    have hmap : (Json.ofMap encode env).map? decode = some env :=
      Json.map?_ofMap fun e he => decode_encode (h e he)
    unfold instCodecEnvironment
    simp [fields?_ofMembers, hmap]

/-! ### Machine states -/

namespace Machine

instance : Ranged Value := .unrestricted

@[simp] theorem inRange_value (v : Value) : InRange v := trivial

instance : LawfulCodec Value where
  decode_encode {v} _ := by
    unfold instCodecValue
    cases v <;> simp [Json.ofVariant, Json.variant?, decode_encode]

instance : LawfulCodec (Option Value) := .option fun v => by
  cases v <;> simp [encode, Json.ofVariant]

instance : Ranged State where
  InRange s := InRange s.bindings ∧ InRange s.clock ∧ InRange s.allocations

@[simp] theorem inRange_state {s : State} :
    InRange s ↔ InRange s.bindings ∧ InRange s.clock ∧ InRange s.allocations := Iff.rfl

theorem State.decode_of_fields {s : State} {j bindings clock memory allocations input : Json}
    (hfields : j.fields? ["variables", "clock", "memory", "allocations", "input"] =
      some [bindings, clock, memory, allocations, input])
    (hbindings : bindings.map? decode = some s.bindings) (hclock : decode clock = some s.clock)
    (hmemory : memory.map? decode = some s.memory)
    (hallocations : decode allocations = some s.allocations)
    (hinput : decode input = some s.input) : decode j = some s := by
  unfold instCodecState
  simp [hfields, hbindings, hclock, hmemory, hallocations, hinput]

instance : LawfulCodec State where
  decode_encode {s} h := by
    have hbindings : (Json.ofMap encode s.bindings).map? decode = some s.bindings :=
      Json.map?_ofMap fun e he => decode_encode (h.1 e he)
    have hmemory : (Json.ofMap encode s.memory).map? decode = some s.memory :=
      Json.map?_ofMap fun e _ => decode_encode (by simp)
    have hinput : decode (encode s.input) = some s.input := decode_encode (by simp)
    exact State.decode_of_fields (fields?_ofMembers rfl (by decide)) hbindings
      (decode_encode h.2.1) hmemory (decode_encode h.2.2) hinput

instance : Ranged Options where
  InRange o := InRange o.maxSteps

theorem Options.decode_of_fields {o : Options} {j maxSteps : Json}
    (hfields : j.record? [⟨"max_steps", .default⟩] = some [some maxSteps])
    (hsteps : decode maxSteps = some o.maxSteps) : decode j = some o := by
  unfold instCodecOptions
  simp [hfields, Codec.decodeOr, hsteps]

instance : LawfulCodec Options where
  decode_encode h := Options.decode_of_fields (record?_ofMembers rfl (by simp)) (decode_encode h)

end Machine

/-! ### Solver settings -/

namespace Solver

instance : Ranged Strategy := .unrestricted

instance : LawfulCodec Strategy where
  decode_encode {s} _ := by
    cases s <;> rfl

instance : Ranged Order := .unrestricted

theorem inRange_order (o : Order) : InRange o := trivial

instance : LawfulCodec Order where
  decode_encode {o} _ := by
    cases o <;> rfl

instance : Ranged Options where
  InRange o := InRange o.maxEvaluations

theorem Options.decode_of_fields {o : Options} {j maxEvaluations order : Json}
    (hfields : j.record? [⟨"max_evaluations", .default⟩, ⟨"order", .default⟩] =
      some [some maxEvaluations, some order])
    (hevaluations : decode maxEvaluations = some o.maxEvaluations)
    (horder : decode order = some o.order) : decode j = some o := by
  unfold instCodecOptions
  simp [hfields, Codec.decodeOr, hevaluations, horder]

instance : LawfulCodec Options where
  decode_encode {o} h :=
    Options.decode_of_fields (record?_ofMembers rfl (by simp)) (decode_encode h)
      (decode_encode (inRange_order o.order))

end Solver

/-! ### The whole format -/

/-- The text of every value with ids and counters in the unsigned 64-bit range is read as that
value. -/
def RoundTrips (α : Type) [Codec α] [Ranged α] : Prop :=
  ∀ a : α, InRange a → Codec.read (Codec.write a) = .ok a

theorem roundTrips {α : Type} [Codec α] [Ranged α] [LawfulCodec α] : RoundTrips α :=
  fun _ h => LawfulCodec.read_write h

/-- Whatever the format can write is read back: each value of a program, of an analysis, of a
machine and of the settings. -/
theorem format_roundTrips :
    RoundTrips Constant ∧ RoundTrips BinaryOp ∧ RoundTrips Operation ∧ RoundTrips Instruction ∧
    RoundTrips Program ∧
    RoundTrips Flat ∧ RoundTrips DefinitionSet ∧ RoundTrips DominatorSet ∧
    RoundTrips LocationSet ∧
    RoundTrips (Environment Flat) ∧ RoundTrips (Environment DefinitionSet) ∧
    RoundTrips (Environment DominatorSet) ∧ RoundTrips (Environment LocationSet) ∧
    RoundTrips Machine.Value ∧ RoundTrips Machine.State ∧
    RoundTrips Solver.Strategy ∧ RoundTrips Solver.Order ∧ RoundTrips Solver.Options ∧
    RoundTrips Machine.Options :=
  ⟨roundTrips, roundTrips, roundTrips, roundTrips, roundTrips, roundTrips, roundTrips, roundTrips,
    roundTrips, roundTrips, roundTrips, roundTrips, roundTrips, roundTrips, roundTrips, roundTrips,
    roundTrips, roundTrips, roundTrips⟩

/-- A program that no edit makes: an id that is not its position, edges that lead nowhere, and
names with quotes, control characters and a character outside the basic plane. -/
def strayProgram : Program where
  instructions := #[
    { id := UInt64.size - 1, operation := .phi "a\"b\\c\n\x01" ["", "é😀", ""],
      successors := .branch (some (UInt64.size - 1)) none, predecessors := [7, 7] },
    { id := 0, operation := .binary .lth "x" "x" "", successors := .sequential [3, 3],
      predecessors := [] }]

/-- A state that no run makes: a write later than the clock, and a reference to no cell. -/
def strayState : Machine.State where
  bindings := (∅ : Std.ExtTreeMap String (Machine.Value × Nat)).insert "\t\x1f"
    (.reference "nowhere", UInt64.size - 1)
  clock := 0
  memory := (∅ : Std.ExtTreeMap String (Option Machine.Value)).insert "cell" none
  allocations := UInt64.size - 1
  input := [.int Int64.minValue, .bool true]

theorem format_roundTrips_strays :
    (InRange strayProgram ∧ Codec.read (Codec.write strayProgram) = .ok strayProgram) ∧
    InRange strayState ∧ Codec.read (Codec.write strayState) = .ok strayState := by
  obtain ⟨-, -, -, -, hprograms, -, -, -, -, -, -, -, -, -, hstates, -⟩ := format_roundTrips
  have hprogram : InRange strayProgram := by
    simp [strayProgram, UInt64.size]
  have hstate : InRange strayState := by
    simp only [strayState, UInt64.size, Machine.inRange_state, inRange_map, inRange_prod,
      Machine.inRange_value, inRange_nat, true_and, Prod.forall,
      Std.ExtTreeMap.mem_toList_iff_getElem?_eq_some, Std.ExtTreeMap.getElem?_insert]
    grind
  exact ⟨⟨hprogram, hprograms _ hprogram⟩, hstate, hstates _ hstate⟩

end Dataflow
