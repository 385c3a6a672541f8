/-! # ASCII case

Names of classes, methods and reserved words are compared without regard to the case of ASCII
letters. Every other character stands for itself, whatever its case.
-/

namespace EntityAudit.Text

def foldCase (s : String) : String :=
  String.ofList (s.toList.map Char.toLower)

def raiseCase (s : String) : String :=
  String.ofList (s.toList.map Char.toUpper)

def sameFold (a b : String) : Bool :=
  foldCase a == foldCase b

theorem toLower_of_not_isUpper {c : Char} (other : c.isUpper = false) : c.toLower = c :=
  dif_neg (of_decide_eq_false other)

/-- A letter in lower case comes of one of the 26 capitals or of itself. -/
theorem toLower_cases {motive : Char → Char → Prop}
    (capital : ∀ n < 26, motive (.ofNat (65 + n)) (Char.toLower (.ofNat (65 + n))))
    (other : ∀ c, c.isUpper = false → motive c c) (c : Char) : motive c c.toLower := by
  cases upper : c.isUpper with
  | true =>
    obtain ⟨low, high⟩ : 65 ≤ c.toNat ∧ c.toNat ≤ 90 := of_decide_eq_true upper
    have found := capital (c.toNat - 65) (by omega)
    rwa [Nat.add_sub_cancel' low, Char.ofNat_toNat] at found
  | false =>
    rw [toLower_of_not_isUpper upper]
    exact other c upper

theorem foldCase_foldCase (s : String) : foldCase (foldCase s) = foldCase s := by
  have again (c : Char) : c.toLower.toLower = c.toLower :=
    toLower_cases (motive := fun _ small => small.toLower = small) (by decide)
      (fun _ => toLower_of_not_isUpper) c
  simp [foldCase, Function.comp_def, again]

theorem raiseCase_foldCase (s : String) : raiseCase (foldCase s) = raiseCase s := by
  have raised (c : Char) : c.toLower.toUpper = c.toUpper :=
    toLower_cases (motive := fun c small => small.toUpper = c.toUpper) (by decide)
      (fun _ _ => rfl) c
  simp [raiseCase, foldCase, Function.comp_def, raised]

theorem sameFold_iff {a b} : sameFold a b = true ↔ foldCase a = foldCase b := by
  simp [sameFold]

@[simp] theorem sameFold_refl (a : String) : sameFold a a = true := by
  simp [sameFold]

end EntityAudit.Text
