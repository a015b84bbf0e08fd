import BootConfig.Proofs.Number.ReadBack
import BootConfig.Proofs.Yaml.Words
import BootConfig.Yaml.Resolve

/-!
# What a scalar can mean

An integer that is read has 64 bits and a float is in canonical form, whatever text they had.
-/

namespace BootConfig.Yaml

/-- The trees that are read from scalars. -/
inductive Meant : Tree → Prop where
  | null : Meant .null
  | bool (b : Bool) : Meant (.bool b)
  | int {n : Int} (h : Resolve.fits 64 n = true) : Meant (.int n)
  | float {x : Double} (h : x.IsCanonical) : Meant (.float x)
  | str (text : String) : Meant (.str text)

namespace Resolve

variable {t : Tree}

theorem fits_iff {n : Int} :
    fits 64 n = true ↔ -9223372036854775808 ≤ n ∧ n < 18446744073709551616 := by
  simp [fits]

/-! ## Words -/

theorem says_meant {text : String} (h : Words.Says text t) : Meant t := by
  cases h with
  | on _ => exact .bool true
  | off _ => exact .bool false
  | octal h =>
      have hb := h.bound
      refine .int (fits_iff.mpr ?_)
      split <;> omega

theorem words_meant (text : String) : Meant (Words.read text) := by
  by_cases h : Words.read text = .str text
  · rw [h]
    exact .str text
  · exact says_meant (.of_read h)

/-! ## Forms -/

theorem int?_meant {text : List Char} (h : int? text = some t) : Meant t := by
  obtain ⟨n, _, h⟩ := Option.bind_eq_some_iff.mp h
  unfold ofInteger? at h
  split at h
  · rename_i hf; cases h; exact .int hf
  · split at h
    · cases h; exact .float (Double.isCanonical_ofInt n)
    · cases h

theorem float?_canonical {text : String} {x : Double} (h : float? text = some x) :
    x.IsCanonical := by
  unfold float? at h
  split at h
  · cases h; trivial
  · split at h
    · cases h; trivial
    · split at h
      · cases h; trivial
      · split at h
        · rename_i y hy
          obtain ⟨d, _, rfl⟩ := Option.map_eq_some_iff.mp hy
          split at h
          · cases h; exact Decimal.isCanonical_toDouble d
          · cases h
        · cases h

theorem plain?_meant {text : String} (h : plain? text = some t) : Meant t := by
  unfold plain? at h
  split at h
  · cases h; exact .null
  · split at h
    · cases h; exact .bool _
    · split at h
      · rename_i hi; cases h; exact int?_meant hi
      · split at h
        · cases h
        · obtain ⟨x, hx, rfl⟩ := Option.map_eq_some_iff.mp h
          exact .float (float?_canonical hx)

theorem formed?_meant {text : String} {form : Form} (h : formed? text form = some t) : Meant t := by
  cases form with
  | boolean =>
      obtain ⟨b, _, rfl⟩ := Option.map_eq_some_iff.mp h
      exact .bool b
  | integer => exact int?_meant h
  | float =>
      obtain ⟨x, hx, rfl⟩ := Option.map_eq_some_iff.mp h
      exact .float (float?_canonical hx)
  | null =>
      simp only [formed?] at h
      split at h
      · cases h; exact .null
      · cases h

/-! ## Scalars -/

theorem text_meant (input : ByteArray) (s : Scalar) : Meant (text input s) := by
  unfold text
  split
  · split
    · exact .str _
    · exact words_meant _
  · exact .str _

theorem scalar_meant {input : ByteArray} {s : Scalar} (h : scalar input s = .ok t) : Meant t := by
  unfold scalar at h
  split at h
  · split at h
    · rename_i hf; cases h; exact formed?_meant hf
    · cases h
  · cases h
    split
    · unfold untagged
      cases hp : plain? s.text with
      | none => exact text_meant input s
      | some t => exact plain?_meant hp
    · exact text_meant input s

end Resolve

end BootConfig.Yaml
