import Dataflow.Json.Codec
import Dataflow.Proofs.Json.Text

/-!
# JSON forms read back

A value of this library may hold ids and counters, and a text can hold only those in the unsigned
64-bit range.  `Ranged.InRange` says that all of them are in that range; types without any are
`Ranged.unrestricted`.  A `LawfulCodec` reads back the JSON form of every such value, and then
`Codec.read` reads back its text (`LawfulCodec.read_write`).

The laws of the shared forms are proved here once: a record gives all its fields back when their
names differ (`Json.record?_ofMembers`), and lists, sets and maps give back their items if each of
them is read back.
-/

namespace Dataflow

open Codec (encode decode)

/-! ### Lawful forms -/

/-- The values of a type whose ids and counters are in the unsigned 64-bit range. -/
class Ranged (α : Type) where
  /-- Every id and counter in the value is in the unsigned 64-bit range. -/
  InRange : α → Prop

open Ranged (InRange)

/-- The values of the type hold no ids and counters. -/
@[reducible] def Ranged.unrestricted {α : Type} : Ranged α := ⟨fun _ => True⟩

/-- A JSON form that is read back. -/
class LawfulCodec (α : Type) [Codec α] [Ranged α] : Prop where
  decode_encode {a : α} : InRange a → decode (encode a) = some a

open LawfulCodec (decode_encode)

/-- The text of a value is read as that value. -/
theorem LawfulCodec.read_write {α : Type} [Codec α] [Ranged α] [LawfulCodec α] {a : α}
    (h : InRange a) : Codec.read (Codec.write a) = .ok a := by
  simp [Codec.read, Codec.write, Json.parse?_render, decode_encode h]

/-! ### Containers from their items -/

theorem mapM_eq_some_map {α β : Type} {f : α → Option β} {g : α → β} {l : List α}
    (h : ∀ a ∈ l, f a = some (g a)) : l.mapM f = some (l.map g) := by
  induction l with
  | nil => rfl
  | cons a l ih =>
    have hl := ih fun b hb => h b (List.mem_cons_of_mem a hb)
    simp [h a List.mem_cons_self, hl]

theorem ofList_toList_set {α : Type} [DecidableEq α] {cmp : α → α → Ordering} [Std.TransCmp cmp]
    [Std.LawfulEqCmp cmp] (s : Std.ExtTreeSet α cmp) : .ofList s.toList cmp = s := by
  apply Std.ExtTreeSet.ext_mem
  intro a
  rw [Std.ExtTreeSet.mem_ofList, List.contains_iff_mem, Std.ExtTreeSet.mem_toList]

theorem ofList_toList_map {α β : Type} [DecidableEq α] {cmp : α → α → Ordering} [Std.TransCmp cmp]
    [Std.LawfulEqCmp cmp] (m : Std.ExtTreeMap α β cmp) : .ofList m.toList cmp = m := by
  apply Std.ExtTreeMap.ext_getElem?
  intro k
  rcases hk : m[k]? with _ | v
  · have hkeys : (m.toList.map Prod.fst).contains k = false := by
      simp [Std.ExtTreeMap.map_fst_toList_eq_keys, Std.ExtTreeMap.mem_iff_isSome_getElem?, hk]
    exact Std.ExtTreeMap.getElem?_ofList_of_contains_eq_false hkeys
  · have hmem := Std.ExtTreeMap.mem_toList_iff_getElem?_eq_some.2 hk
    exact Std.ExtTreeMap.getElem?_ofList_of_mem Std.ReflCmp.compare_self
      Std.ExtTreeMap.distinct_keys_toList hmem

namespace Json

/-! ### Records -/

theorem filter_key {members : List (String × Json)} (hnodup : (members.map (·.1)).Nodup)
    {m : String × Json} (hm : m ∈ members) : members.filter (·.1 == m.1) = [m] := by
  induction members with
  | nil => cases hm
  | cons n members ih =>
    obtain ⟨hfresh, hnodup⟩ := List.nodup_cons.1 hnodup
    rcases List.mem_cons.1 hm with rfl | hm
    · have hrest : members.filter (·.1 == m.1) = [] := by
        rw [List.filter_eq_nil_iff]
        intro n hn heq
        exact hfresh (List.mem_map.2 ⟨n, hn, by simpa using heq⟩)
      rw [List.filter_cons_of_pos (by simp), hrest]
    · have hne : n.1 ≠ m.1 := fun heq => hfresh (List.mem_map.2 ⟨m, hm, heq.symm⟩)
      rw [List.filter_cons_of_neg (by simpa using hne), ih hnodup hm]

theorem named_ofMembers {members : List (String × Json)} (hnodup : (members.map (·.1)).Nodup)
    {m : String × Json} (hm : m ∈ members) {f : Field} (hf : f.name = m.1) :
    named (members.map fun m => (some m.1, m.2)) f = some (some m.2) := by
  have hfilter : (members.map fun m => ((some m.1 : Text), m.2)).filter (·.1 == some f.name) =
      [(some m.1, m.2)] := by
    rw [List.filter_map, hf]
    simpa [Function.comp_def] using filter_key hnodup hm
  rw [named, hfilter]

/-- Fields are looked up in the whole object, also where only a part of its members is asked
for. -/
theorem mapM_named {members : List (String × Json)} (hnodup : (members.map (·.1)).Nodup)
    {fields : List Field} {asked : List (String × Json)} (hsub : asked ⊆ members)
    (hnames : fields.map (·.name) = asked.map (·.1)) :
    fields.mapM (named (members.map fun m => (some m.1, m.2))) = some (asked.map (some ·.2)) := by
  induction asked generalizing fields with
  | nil =>
    rw [List.map_eq_nil_iff.1 hnames]
    rfl
  | cons m asked ih =>
    obtain ⟨f, fields, rfl, hf, hnames⟩ := List.map_eq_cons_iff.1 hnames
    obtain ⟨hm, hsub⟩ := List.cons_subset.1 hsub
    simp [named_ofMembers hnodup hm hf, ih hsub hnames]

/-- A record that gives all its fields by name, each once, gives them back in order. -/
theorem record?_ofMembers {fields : List Field} {members : List (String × Json)}
    (hnames : fields.map (·.name) = members.map (·.1)) (hnodup : (members.map (·.1)).Nodup) :
    (ofMembers members).record? fields = some (members.map (some ·.2)) := by
  rw [ofMembers, record?, if_pos (by simp), mapM_named hnodup (List.Subset.refl members) hnames]

theorem fields?_ofMembers {names : List String} {members : List (String × Json)}
    (hnames : names = members.map (·.1)) (hnodup : names.Nodup) :
    (ofMembers members).fields? names = some (members.map (·.2)) := by
  subst hnames
  have hrecord : (ofMembers members).record? ((members.map (·.1)).map ({ name := · })) =
      some (members.map (some ·.2)) := record?_ofMembers (by simp) hnodup
  rw [fields?, hrecord, Option.bind_some, List.mapM_map]
  exact mapM_eq_some_map fun m _ => rfl

/-! ### Lists and maps -/

theorem list?_ofList {α : Type} {item : α → Json} {read : Json → Option α} {items : List α}
    (h : ∀ a ∈ items, read (item a) = some a) : (ofList item items).list? read = some items := by
  have hitems : items.mapM (read ∘ item) = some (items.map id) := mapM_eq_some_map h
  rw [ofList, list?, List.mapM_map, hitems, List.map_id]

theorem map?_ofMap {α : Type} {value : α → Json} {read : Json → Option α}
    {m : Std.ExtTreeMap String α} (h : ∀ e ∈ m.toList, read (value e.2) = some e.2) :
    (ofMap value m).map? read = some m := by
  have hmembers : m.toList.mapM (fun e => member? read (some e.1, value e.2)) =
      some (m.toList.map id) := by
    apply mapM_eq_some_map
    intro e he
    rw [member?, h e he]
    rfl
  simp only [ofMap, ofMembers, map?, List.mapM_map, Function.comp_def, hmembers]
  rw [Option.map_some, List.map_id, ofList_toList_map]

end Json

/-! ### Basic types -/

instance : Ranged String := .unrestricted

@[simp] theorem inRange_string (s : String) : InRange s := trivial

instance : LawfulCodec String where
  decode_encode _ := rfl

instance : Ranged Nat := ⟨(· < UInt64.size)⟩

@[simp] theorem inRange_nat {n : Nat} : InRange n ↔ n < UInt64.size := Iff.rfl

instance : LawfulCodec Nat where
  decode_encode {n} h := by
    have hint : (n : Int) < UInt64.size := Int.ofNat_lt.2 (inRange_nat.1 h)
    simp only [decode, encode, Json.nat?, Int.natCast_nonneg, hint, and_self, if_true,
      Int.toNat_natCast]

instance {α : Type} [Ranged α] : Ranged (List α) := ⟨fun l => ∀ a ∈ l, InRange a⟩

@[simp] theorem inRange_list {α : Type} [Ranged α] {l : List α} :
    InRange l ↔ ∀ a ∈ l, InRange a := Iff.rfl

instance {α : Type} [Codec α] [Ranged α] [LawfulCodec α] : LawfulCodec (List α) where
  decode_encode h := Json.list?_ofList fun a ha => decode_encode (h a ha)

instance {α : Type} [Ranged α] : Ranged (Option α) := ⟨fun o => ∀ a ∈ o, InRange a⟩

@[simp] theorem inRange_option {α : Type} [Ranged α] {o : Option α} :
    InRange o ↔ ∀ a ∈ o, InRange a := Iff.rfl

/-- An optional value is read back if `null` is not the form of a value. -/
theorem LawfulCodec.option {α : Type} [Codec α] [Ranged α] [LawfulCodec α]
    (hnull : ∀ a : α, encode a ≠ .null) : LawfulCodec (Option α) where
  decode_encode {o} h := by
    cases o with
    | none => rfl
    | some a =>
      have hread := decode_encode (h a rfl)
      simp [decode, encode, hread, hnull]

instance : LawfulCodec (Option Nat) := .option (by simp [encode])

instance {α β : Type} [Ranged α] [Ranged β] : Ranged (α × β) :=
  ⟨fun p => InRange p.1 ∧ InRange p.2⟩

@[simp] theorem inRange_prod {α β : Type} [Ranged α] [Ranged β] {p : α × β} :
    InRange p ↔ InRange p.1 ∧ InRange p.2 := Iff.rfl

instance {α β : Type} [Codec α] [Codec β] [Ranged α] [Ranged β] [LawfulCodec α] [LawfulCodec β] :
    LawfulCodec (α × β) where
  decode_encode h := by
    simp [decode, encode, decode_encode h.1, decode_encode h.2]

instance {α : Type} [Ranged α] {cmp : α → α → Ordering} [Std.TransCmp cmp] :
    Ranged (Std.ExtTreeSet α cmp) := ⟨fun s => ∀ a ∈ s.toList, InRange a⟩

instance {α : Type} [Ranged α] : Ranged (Std.ExtTreeMap String α) :=
  ⟨fun m => ∀ e ∈ m.toList, InRange e.2⟩

@[simp] theorem inRange_map {α : Type} [Ranged α] {m : Std.ExtTreeMap String α} :
    InRange m ↔ ∀ e ∈ m.toList, InRange e.2 := Iff.rfl

theorem word?_toInt (n : Int64) : word? n.toInt = some n := by
  have hmin : Int64.minValue.toInt ≤ n.toInt := Int64.le_iff_toInt_le.1 (Int64.minValue_le n)
  have hmax : n.toInt ≤ Int64.maxValue.toInt := Int64.le_iff_toInt_le.1 (Int64.le_maxValue n)
  rw [word?, if_pos ⟨hmin, hmax⟩, Int64.ofInt_toInt]

instance : Ranged Constant := .unrestricted

@[simp] theorem inRange_constant (c : Constant) : InRange c := trivial

instance : LawfulCodec Constant where
  decode_encode {c} _ := by
    cases c with
    | bool b => rfl
    | int n =>
      simp [decode, encode, word?_toInt]

end Dataflow
