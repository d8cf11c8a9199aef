import CxxUnits.Proofs.Text.Encoding
import CxxUnits.Text.WordSet
import Mathlib.Data.List.Sort

/-!
The order of words. Words that are ordered by code point are ordered by their UTF-8 bytes,
since the encodings of two characters first differ at a byte that is less for the lesser
character. So a set of words has its members in the order into which sorting by bytes brings
them, wherever they come from.
-/
namespace CxxUnits.Text

/-- The lists differ at a place that both have, and there the first list has less. -/
def DiffersBelow : List UInt8 → List UInt8 → Prop
  | b :: bs, b' :: bs' => b.toNat < b'.toNat ∨ b.toNat = b'.toNat ∧ DiffersBelow bs bs'
  | _, _ => False

theorem DiffersBelow.append_lt {bs bs' : List UInt8} (h : DiffersBelow bs bs')
    (more more' : List UInt8) : bs ++ more < bs' ++ more' := by
  induction bs generalizing bs' with
  | nil => cases h
  | cons b bs ih =>
      cases bs' with
      | nil => cases h
      | cons b' bs' =>
          rw [List.cons_append, List.cons_append, List.cons_lt_cons_iff, UInt8.lt_iff_toNat_lt,
            ← UInt8.toNat_inj]
          exact h.imp_right (And.imp_right ih)

theorem lt_or_digit_lt {m n : Nat} (h : m < n) :
    m / 64 < n / 64 ∨ m / 64 = n / 64 ∧ m % 64 < n % 64 := by
  omega

/-- Four bytes: what one digit less leaves equal is decided by the digits behind it. -/
theorem differsBelow_four_bytes {m n : Nat} (h : m < n) (hmost : n < 0x110000) :
    DiffersBelow
      [UInt8.ofNat (m / 262144 % 8 + 240), UInt8.ofNat (m / 4096 % 64 + 128),
        UInt8.ofNat (m / 64 % 64 + 128), UInt8.ofNat (m % 64 + 128)]
      [UInt8.ofNat (n / 262144 % 8 + 240), UInt8.ofNat (n / 4096 % 64 + 128),
        UInt8.ofNat (n / 64 % 64 + 128), UInt8.ofNat (n % 64 + 128)] := by
  have hsquare : m / 64 / 64 = m / 4096 ∧ n / 64 / 64 = n / 4096 := by omega
  have hcube : m / 4096 / 64 = m / 262144 ∧ n / 4096 / 64 = n / 262144 := by omega
  simp (disch := omega) only [DiffersBelow, UInt8.toNat_ofNat', Nat.mod_eq_of_lt, or_false,
    and_false]
  rcases lt_or_digit_lt h with h | ⟨hsame, hfourth⟩
  · rcases lt_or_digit_lt h with h | ⟨hsame, hthird⟩
    · rcases lt_or_digit_lt h with h | ⟨hsame, hsecond⟩
      · exact .inl (by omega)
      · exact .inr ⟨by omega, .inl (by omega)⟩
    · exact .inr ⟨by omega, .inr ⟨by omega, .inl (by omega)⟩⟩
  · exact .inr ⟨by omega, .inr ⟨by omega, .inr ⟨by omega, by omega⟩⟩⟩

/-- Of two encodings of one length the first byte that differs tells; of two lengths already
the first byte does. -/
theorem differsBelow_utf8EncodeChar {c d : Char} (h : c < d) :
    DiffersBelow (String.utf8EncodeChar c) (String.utf8EncodeChar d) := by
  have hlt : c.val.toNat < d.val.toNat := UInt32.lt_iff_toNat_lt.1 h
  have hmost : d.val.toNat < 0x110000 := by
    rcases d.valid with hvalid | hvalid <;> omega
  by_cases hlong : c.val.toNat ≤ 65535
  · simp only [String.utf8EncodeChar]
    split_ifs
    all_goals
      simp only [DiffersBelow, UInt8.toNat_ofNat', or_false, and_false]
      omega
  · have hc : ¬c.val.toNat ≤ 127 ∧ ¬c.val.toNat ≤ 2047 := by omega
    have hd : ¬d.val.toNat ≤ 127 ∧ ¬d.val.toNat ≤ 2047 ∧ ¬d.val.toNat ≤ 65535 := by omega
    simp only [String.utf8EncodeChar, hc, hd, hlong, if_false]
    exact differsBelow_four_bytes hlt hmost

theorem encode_lt_encode {cs ds : List Char} (h : cs < ds) : encode cs < encode ds := by
  induction cs generalizing ds with
  | nil =>
      cases ds with
      | nil => exact absurd h (List.not_lt_nil _)
      | cons d ds =>
          obtain ⟨b, bs, hbytes⟩ :=
            List.exists_cons_of_ne_nil (String.utf8EncodeChar_ne_nil (c := d))
          rw [encode_cons, hbytes]
          exact List.nil_lt_cons b (bs ++ encode ds)
  | cons c cs ih =>
      cases ds with
      | nil => exact absurd h (List.not_lt_nil _)
      | cons d ds =>
          rw [encode_cons, encode_cons]
          rcases List.cons_lt_cons_iff.1 h with hlt | ⟨rfl, hrest⟩
          · exact (differsBelow_utf8EncodeChar hlt).append_lt _ _
          · exact List.append_left_lt (ih hrest)

/-- Words in increasing order are in increasing order of their bytes. -/
theorem WordSet.increasing_bytes (set : WordSet) :
    set.toList.Pairwise fun word other => encode word.toList < encode other.toList :=
  set.increasing.imp fun h => encode_lt_encode (String.lt_iff.1 h)

def bytesLe (word other : String) : Bool :=
  encode word.toList ≤ encode other.toList

/-- The members of a set, given once each in whatever order, are sorted into its list. -/
theorem WordSet.mergeSort_eq {set : WordSet} {words : List String} (hnodup : words.Nodup)
    (hmem : ∀ word, word ∈ words ↔ word ∈ set) : words.mergeSort bytesLe = set.toList := by
  have hset : set.toList.Nodup := set.increasing.imp String.ne_of_lt
  have hperm : (words.mergeSort bytesLe).Perm set.toList :=
    (List.mergeSort_perm words bytesLe).trans ((List.perm_ext_iff_of_nodup hnodup hset).2 hmem)
  have hsorted : (words.mergeSort bytesLe).Pairwise (bytesLe · ·) := by
    apply List.pairwise_mergeSort
    · intro a b c
      simpa [bytesLe] using List.le_trans
    · intro a b
      simpa [bytesLe] using List.le_total _ _
  refine hperm.eq_of_pairwise ?_ hsorted (set.increasing_bytes.imp ?_)
  · intro a b _ _ hab hba
    simp only [bytesLe, decide_eq_true_eq] at hab hba
    exact String.toList_inj.1 (encode_injective (List.le_antisymm hab hba))
  · intro a b hlt
    simpa [bytesLe] using List.le_of_lt hlt

theorem WordSet.toList_eq {set : WordSet} {words : List String} (h : words.Pairwise (· < ·))
    (hmem : ∀ word, word ∈ set ↔ word ∈ words) : set.toList = words :=
  set.increasing.eq_of_mem_iff h hmem

end CxxUnits.Text
