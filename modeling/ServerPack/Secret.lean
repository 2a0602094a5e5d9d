import ServerPack.Text.Basic

/-!
Secrets: random strings over the ASCII letters and digits. A random source is an endless sequence of
places in the alphabet together with the number of them that have been used, so what a run draws is
a function of the source alone.
-/

namespace ServerPack

/-- The characters of which secrets consist. -/
def secretAlphabet : Text :=
  "ABCDEFGHIJKLMNOPQRSTUVWXYZabcdefghijklmnopqrstuvwxyz0123456789".toList

/-- The length of a secret that settings ask for. -/
def secretLength : Nat := 16

/-- A sequence of draws and how many of them are spent. -/
structure RandomSource where
  draws : Nat → Fin 62
  used : Nat

namespace RandomSource

theorem length_secretAlphabet : secretAlphabet.length = 62 := by decide

/-- The character at a place in the alphabet. -/
def character (place : Fin 62) : Char :=
  secretAlphabet.get (place.cast length_secretAlphabet.symm)

/-- The next characters, and the source without them. -/
def take (source : RandomSource) (count : Nat) : Text × RandomSource :=
  ((List.range count).map fun i => character (source.draws (source.used + i)),
    { source with used := source.used + count })

@[simp] theorem length_take (source : RandomSource) (count : Nat) :
    (source.take count).1.length = count := by
  simp [take]

@[simp] theorem used_take (source : RandomSource) (count : Nat) :
    (source.take count).2.used = source.used + count := rfl

/-- Every character of a secret is in the alphabet. -/
theorem mem_alphabet_of_mem_take {source : RandomSource} {count : Nat} {c : Char}
    (h : c ∈ (source.take count).1) : c ∈ secretAlphabet := by
  obtain ⟨i, _, rfl⟩ := List.mem_map.1 h
  exact List.get_mem _ _

end RandomSource

end ServerPack
