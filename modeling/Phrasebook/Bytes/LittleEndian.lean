/-!
# Little-endian words

A 32-bit word is stored as four bytes, the lowest first.
-/

namespace Phrasebook.Bytes

def wordBytes (w : UInt32) : List UInt8 :=
  [UInt8.ofNat w.toNat, UInt8.ofNat (w.toNat / 0x100), UInt8.ofNat (w.toNat / 0x10000),
    UInt8.ofNat (w.toNat / 0x1000000)]

def wordOfBytes (bytes : List UInt8) : UInt32 :=
  UInt32.ofNat (bytes.foldr (fun b high => b.toNat + 0x100 * high) 0)

@[simp] theorem length_wordBytes (w : UInt32) : (wordBytes w).length = 4 := rfl

@[simp] theorem wordOfBytes_wordBytes (w : UInt32) : wordOfBytes (wordBytes w) = w := by
  have bound := w.toNat_lt
  apply UInt32.toNat_inj.mp
  simp only [wordOfBytes, wordBytes, List.foldr_cons, List.foldr_nil, UInt32.toNat_ofNat',
    UInt8.toNat_ofNat']
  omega

theorem wordBytes_wordOfBytes {bytes : List UInt8} (four : bytes.length = 4) :
    wordBytes (wordOfBytes bytes) = bytes := by
  match bytes, four with
  | [b₀, b₁, b₂, b₃], _ =>
      have h₀ := b₀.toNat_lt
      have h₁ := b₁.toNat_lt
      have h₂ := b₂.toNat_lt
      have h₃ := b₃.toNat_lt
      simp only [wordOfBytes, wordBytes, List.foldr_cons, List.foldr_nil, UInt32.toNat_ofNat',
        List.cons.injEq, and_true]
      refine ⟨?_, ?_, ?_, ?_⟩ <;> apply UInt8.toNat_inj.mp <;>
        simp only [UInt8.toNat_ofNat'] <;> omega

end Phrasebook.Bytes
