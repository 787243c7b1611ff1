import Mathlib.Data.List.Nodup
import Mathlib.Data.List.Perm.Subperm
import Mathlib.Data.List.Range

/-!
# Free names

Temporary files and repeated identifiers are given numbers until a name is free. Different numbers
make different names (`toString_injective`), so that one of them is free as soon as there are more
than taken names (`exists_free`).
-/

namespace AccessPatch

theorem toString_injective : Function.Injective (toString : Nat → String) := by
  intro m n h
  have hdigits : Nat.toDigits 10 m = Nat.toDigits 10 n := by
    simpa only [Nat.toString_eq_repr, Nat.repr_eq_ofList_toDigits, String.toList_ofList] using
      congrArg String.toList h
  have hnumber := congrArg (fun digits => Nat.ofDigitChars 10 digits 0) hdigits
  simpa only [Nat.ofDigitChars_ten_toDigits] using hnumber

/-- More names than are taken are not all taken. -/
theorem exists_free {α : Type} {name : Nat → α} (hname : Function.Injective name)
    {taken : List α} {n : Nat} (h : taken.length < n) : ∃ k ∈ List.range n, name k ∉ taken := by
  by_contra hnone
  push Not at hnone
  have htaken : (List.range n).map name ⊆ taken := by
    intro x hx
    obtain ⟨k, hk, rfl⟩ := List.mem_map.mp hx
    exact hnone k hk
  have hlength := ((List.nodup_range.map hname).subperm htaken).length_le
  rw [List.length_map, List.length_range] at hlength
  omega

end AccessPatch
