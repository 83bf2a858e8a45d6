import Mathlib.Algebra.Group.Int.Defs
import Mathlib.Data.List.Sort
import Mathlib.Data.String.Basic
import Zebrafish.Lib.Assoc

/-!
# Toml.Value

TOML values: scalars, arrays and tables.  A table lists its entries; the ones
built here have distinct keys and, like the `BTreeMap` they stand for, list
them in order.
-/

namespace Toml

/-- A TOML value.  A float is its bit pattern and a date its text: nothing here
computes with either. -/
inductive Value
  | string (s : String)
  | integer (i : Int)
  | float (bits : UInt64)
  | boolean (b : Bool)
  | datetime (text : String)
  | array (items : List Value)
  | table (entries : List (String × Value))

abbrev Entries := List (String × Value)

namespace Value

/-- Induction over the tree, with the hypothesis for every member. -/
@[elab_as_elim]
theorem members_induction {P : Value → Prop} (string : ∀ s, P (.string s))
    (integer : ∀ i, P (.integer i)) (float : ∀ bits, P (.float bits))
    (boolean : ∀ b, P (.boolean b)) (datetime : ∀ text, P (.datetime text))
    (array : ∀ items, (∀ v ∈ items, P v) → P (.array items))
    (table : ∀ entries : Entries, (∀ e ∈ entries, P e.2) → P (.table entries))
    (v : Value) : P v := by
  refine @Value.rec P (fun items => ∀ v ∈ items, P v) (fun entries => ∀ e ∈ entries, P e.2)
    (fun e => P e.2) string integer float boolean datetime array table ?_ ?_ ?_ ?_ ?_ v
  · exact fun _ h => by cases h
  · intro head tail hhead htail
    exact List.forall_mem_cons.mpr ⟨hhead, htail⟩
  · exact fun _ h => by cases h
  · intro head tail hhead htail
    exact List.forall_mem_cons.mpr ⟨hhead, htail⟩
  · intro k v hv
    exact hv

/-- Neither an array nor a table. -/
def isScalar : Value → Bool
  | .array _ => false
  | .table _ => false
  | _ => true

def isTable : Value → Bool
  | .table _ => true
  | _ => false

end Value

/-! ## entries -/

/-- The keys of a table. -/
def keys (entries : Entries) : List String := entries.map Prod.fst

/-- Entries in the order of their keys. -/
def sortKeys (entries : Entries) : Entries := entries.insertionSort fun a b => a.1 ≤ b.1

/-- Sorting loses nothing and adds nothing. -/
theorem perm_sortKeys (entries : Entries) : (sortKeys entries).Perm entries :=
  List.perm_insertionSort _ _

@[simp] theorem mem_sortKeys {entries : Entries} {e : String × Value} :
    e ∈ sortKeys entries ↔ e ∈ entries := (perm_sortKeys entries).mem_iff

/-- Distinct keys stay distinct. -/
theorem nodup_keys_sortKeys {entries : Entries} :
    (keys (sortKeys entries)).Nodup ↔ (keys entries).Nodup :=
  ((perm_sortKeys entries).map Prod.fst).nodup_iff

/-- Sorting does not change what is under a key. -/
theorem lookup_sortKeys {entries : Entries} (h : (keys entries).Nodup) (k : String) :
    (sortKeys entries).lookup k = entries.lookup k :=
  Assoc.lookup_perm (perm_sortKeys entries) h k

/-- Sorted, entries with the same values under the same keys are the same. -/
theorem sortKeys_eq_of_lookup {a b : Entries} (ha : (keys a).Nodup) (hb : (keys b).Nodup)
    (h : ∀ k, a.lookup k = b.lookup k) : sortKeys a = sortKeys b := by
  have hmem : ∀ e, e ∈ a ↔ e ∈ b := by
    rintro ⟨k, v⟩
    rw [← Assoc.lookup_eq_some_iff_mem ha, ← Assoc.lookup_eq_some_iff_mem hb, h k]
  have hperm : a.Perm b := (List.perm_ext_iff_of_nodup ha.of_map hb.of_map).mpr hmem
  have hsorted : ∀ l : Entries, (sortKeys l).Pairwise fun x y => x.1 ≤ y.1 := fun l => by
    have : Std.Total fun x y : String × Value => x.1 ≤ y.1 := ⟨fun x y => le_total x.1 y.1⟩
    have : IsTrans (String × Value) fun x y => x.1 ≤ y.1 := ⟨fun _ _ _ => le_trans⟩
    exact List.pairwise_insertionSort _ l
  refine List.Perm.eq_of_pairwise ?_ (hsorted a) (hsorted b)
    (((perm_sortKeys a).trans hperm).trans (perm_sortKeys b).symm)
  rintro ⟨k, v⟩ ⟨k', v'⟩ hx hy hle hge
  have hkey : k = k' := le_antisymm hle hge
  subst hkey
  have hv := Assoc.lookup_of_mem ha (mem_sortKeys.mp hx)
  have hv' := Assoc.lookup_of_mem hb (mem_sortKeys.mp hy)
  rw [← h k, hv] at hv'
  rw [Option.some.inj hv']

end Toml
