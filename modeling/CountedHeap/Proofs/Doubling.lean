import CountedHeap.Proofs.ExactFit
import Mathlib.Algebra.Order.Ring.Nat
import Mathlib.Data.Nat.Log

/-! The storage of a text that grows geometrically. It is asked for anew only when it is full, and is
then at least doubled; so it is never much more than what the content came to need, and however many
appends a text is made of, its storage changes no more than logarithmically often. -/
namespace CountedHeap.Text.Buffer

/-- How often the storage changes in the course of appends, refused or not. -/
def regrowths (b : Buffer) : List Attempt → Nat
  | [] => 0
  | a :: rest =>
    (if (b.attempt a).capacity = b.capacity then 0 else 1) + (b.attempt a).regrowths rest

/-- How an append that goes through comes by the storage that it uses: there was room to spare, or
all that the policy asks for was granted. -/
inductive Houses (grant : Nat → Bool) (b new : Buffer) : Prop
  | spare (hcapacity : new.capacity = b.capacity)
      (hroom : b.used ≤ b.capacity → new.used ≤ b.capacity)
  | moved (hfull : b.capacity < new.used)
      (hcapacity : new.capacity = b.growth.request b.capacity new.used)
      (hgrant : grant new.capacity = true)

/-- How a geometric buffer stands that began with some storage and changed it so many times: each
time it was doubled at least, and the last time the content came to need more than half of it, or
else just eight octets were asked for. -/
structure Doubled (first count : Nat) (b : Buffer) : Prop where
  growth : b.growth = .amortized
  used_le : b.used ≤ b.capacity
  le_capacity : 2 ^ count * first ≤ b.capacity
  capacity_le : b.capacity ≤ max 8 (2 * b.used) ∨ count = 0 ∧ b.capacity = first

variable {grant : Nat → Bool} {b new : Buffer} {first count : Nat}

theorem used_pos (b : Buffer) : 0 < b.used := Nat.succ_pos b.size

theorem append?_houses {text : List Char} (happend : b.append? grant text = some new) :
    new.growth = b.growth ∧ b.used ≤ new.used ∧ b.Houses grant new := by
  unfold append? at happend
  dsimp only at happend
  split at happend
  · obtain rfl := Option.some.inj happend
    exact ⟨rfl, Nat.le_refl _, .spare rfl id⟩
  · split at happend
    · next hfits =>
      obtain rfl := Option.some.inj happend
      rw [used_extend]
      refine ⟨rfl, Nat.le_add_right _ _, .spare rfl fun _ => ?_⟩
      rwa [used_extend]
    · next hfits =>
      split at happend
      · next hgrant =>
        obtain rfl := Option.some.inj happend
        rw [used_extend]
        refine ⟨rfl, Nat.le_add_right _ _, .moved ?_ ?_ hgrant⟩
        · rw [used_extend]
          exact Nat.lt_of_not_le hfits
        · rw [used_extend]
          rfl
      · cases happend

theorem doubled_self (hgrowth : b.growth = .amortized) (hroom : b.used ≤ b.capacity) :
    b.Doubled b.capacity 0 :=
  ⟨hgrowth, hroom, by omega, .inr ⟨rfl, rfl⟩⟩

/-- One append keeps the account: storage that is left as it is may be used further, and storage that
is asked for anew counts once more. -/
theorem Doubled.attempt (h : b.Doubled first count) (a : Attempt) :
    (b.attempt a).Doubled first
      (count + if (b.attempt a).capacity = b.capacity then 0 else 1) := by
  obtain ⟨hgrowth, hused, hlower, hupper⟩ := h
  have hpos := b.used_pos
  unfold Buffer.attempt
  cases happend : b.append? a.grant a.text with
  | none => simpa using Doubled.mk hgrowth hused hlower hupper
  | some new =>
    obtain ⟨hsame, hmore, hhouses⟩ := append?_houses happend
    rw [Option.getD_some]
    cases hhouses with
    | spare hcapacity hroom =>
      rw [if_pos hcapacity, Nat.add_zero]
      exact ⟨hsame.trans hgrowth, hcapacity ▸ hroom hused, hcapacity ▸ hlower, by omega⟩
    | moved hfull hcapacity hgrant =>
      have hrequest : new.capacity = max (2 * b.capacity) (max new.used 8) := by
        rw [hcapacity, hgrowth, Growth.request]
      have hdouble : 2 ^ (count + 1) * first = 2 * (2 ^ count * first) := by
        rw [Nat.pow_succ', Nat.mul_assoc]
      rw [if_neg (by omega)]
      exact ⟨hsame.trans hgrowth, by omega, by omega, by omega⟩

/-- Appends keep the account, however many they are. -/
theorem Doubled.attempts (h : b.Doubled first count) (as : List Attempt) :
    (b.attempts as).Doubled first (count + b.regrowths as) := by
  induction as generalizing b count with
  | nil => exact h
  | cons a as ih =>
    have hrest := ih (h.attempt a)
    rw [Nat.add_assoc] at hrest
    exact hrest

/-- A change of storage doubles it. -/
theorem Doubled.double_le (h : b.Doubled first count) {a : Attempt}
    (hchange : (b.attempt a).capacity ≠ b.capacity) :
    2 * b.capacity ≤ (b.attempt a).capacity := by
  -- What the account says of the storage that the append begins with.
  have hnext := (doubled_self h.growth h.used_le).attempt a
  rw [if_neg hchange] at hnext
  exact hnext.le_capacity

/-- A buffer that grows geometrically; that it has room for what it uses holds of every buffer that
can be had. Whatever is appended, under whatever allowances, its storage stays below the first one,
eight octets or twice what its content needs with the terminator; an append that changes the storage
at least doubles it; and so the number of changes is bounded by a logarithm of that need. -/
theorem amortized_growth_law {b : Buffer} (hgrowth : b.growth = .amortized)
    (hroom : b.used ≤ b.capacity) (as : List Attempt) :
    let later := b.attempts as
    later.capacity ≤ max b.capacity (max 8 (2 * (later.size + 1))) ∧
    (∀ a, (later.attempt a).capacity ≠ later.capacity →
      2 * later.capacity ≤ (later.attempt a).capacity) ∧
    (1 ≤ b.regrowths as →
      2 ^ b.regrowths as * b.capacity ≤ max 8 (2 * (later.size + 1))) ∧
    b.regrowths as ≤ Nat.log 2 (max 8 (2 * (later.size + 1)) / b.capacity) := by
  intro later
  have hlater : later.Doubled b.capacity (0 + b.regrowths as) :=
    (doubled_self hgrowth hroom).attempts as
  have hused : later.used = later.size + 1 := rfl
  obtain ⟨-, -, hlower, hupper⟩ := id hlater
  rw [Nat.zero_add] at hlower hupper
  rw [hused] at hupper
  have hpower : 1 ≤ b.regrowths as →
      2 ^ b.regrowths as * b.capacity ≤ max 8 (2 * (later.size + 1)) := by
    intro hsome
    obtain hle | ⟨hzero, -⟩ := hupper
    · exact hlower.trans hle
    · omega
  refine ⟨by omega, fun a hchange => hlater.double_le hchange, hpower, ?_⟩
  obtain hzero | hsome := Nat.eq_zero_or_pos (b.regrowths as)
  · rw [hzero]
    exact Nat.zero_le _
  · have hpos : 0 < b.capacity := b.used_pos.trans_le hroom
    exact Nat.le_log_of_pow_le Nat.one_lt_two
      ((Nat.le_div_iff_mul_le hpos).mpr (hpower hsome))

/-- From three octets, two appends of two each make the storage eight octets, and a refusal and a text
without anything to add leave it at that; nine more octets double it. -/
theorem amortized_growth_of_three :
    let b := empty .amortized 3
    let as := [⟨upTo 8, ['é']⟩, ⟨upTo 8, ['a', 'b']⟩, ⟨upTo 8, ['l', 'o', 'n', 'g', 'e', 'r']⟩,
      ⟨upTo 8, ['\x00']⟩, ⟨upTo 20, ['e', 'n', 'o', 'u', 'g', 'h', ' ', 'i', 't']⟩]
    (b.growth = .amortized ∧ b.used ≤ b.capacity) ∧ b.regrowths as = 2 ∧
      (b.attempts as).capacity = 16 ∧ 2 ^ 2 * 3 ≤ max 8 (2 * ((b.attempts as).size + 1)) := by
  intro b as
  have hcount : b.regrowths as = 2 := by decide
  obtain ⟨-, -, hpower, -⟩ := amortized_growth_law (b := b) rfl (by decide) as
  rw [hcount] at hpower
  exact ⟨⟨rfl, by decide⟩, hcount, by decide, hpower (by decide)⟩

end CountedHeap.Text.Buffer
