import Mathlib.Tactic.Ring
import Meshwarden.Codec.Format

/-!
# Readers with a meter

A metered reader takes a value off the front of its input, or fails, changes an ambient state as it
goes, and says how much it spent on the way. What it may spend is accounted for in credits: it holds
some to begin with, earns a fixed number with each byte that it takes, and may leave some behind
with its value for the readers after it. A reader that can pay for itself has spent no more than it
held and earned, also where it fails; with no credits to earn, no more than it held, whatever the
input.

## Main definitions

* `Metered τ α`: metered readers of `α`, with the ambient state `τ`
* `Metered.free`, `Metered.charge`: a reader that spends nothing, and the spending
* `Metered.Affords rate p x s`: `x` pays for itself with `p` credits and `rate` more for each byte
  it takes, and leaves `s a` credits with the value `a`
* `Metered.Spends x cost`: a value that `x` takes has cost what `cost` says

## Main results

* `Metered.Affords.bind`, `Metered.Affords.charge`, `Metered.Affords.free`,
  `Metered.Affords.weaken`: the rules
* `Metered.Affords.spent_le`: what a reader that pays for itself spends
* `Metered.Spends.bind`: spendings add up
-/

namespace Codec

variable {τ α β γ : Type}

/-- A reader that takes a value off the front of its input or fails, changes the ambient state, and
counts what it spends. -/
def Metered (τ α : Type) := Bytes → τ → (Option (α × Bytes) × τ) × ℕ

namespace Metered

instance : Monad (Metered τ) where
  pure a := fun b t => ((some (a, b), t), 0)
  bind x f := fun b t =>
    match x b t with
    | ((none, t), n) => ((none, t), n)
    | ((some (a, b), t), n) => ((f a b t).1, n + (f a b t).2)

/-- A reader that spends nothing. -/
def free (read : Bytes → τ → Option (α × Bytes) × τ) : Metered τ α := fun b t => (read b t, 0)

/-- The spending of `n`. -/
def charge (n : ℕ) : Metered τ Unit := fun b t => ((some ((), b), t), n)

/-- What a metered reader does, without its meter. -/
def unmetered (x : Metered τ α) (b : Bytes) (t : τ) : Option (α × Bytes) × τ := (x b t).1

/-- What a metered reader spends. -/
def spent (x : Metered τ α) (b : Bytes) (t : τ) : ℕ := (x b t).2

theorem bind_of_none {x : Metered τ α} {f : α → Metered τ β} {b : Bytes} {t t' : τ} {n : ℕ}
    (h : x b t = ((none, t'), n)) : (x >>= f) b t = ((none, t'), n) := by
  change (match x b t with
    | ((none, t), n) => ((none, t), n)
    | ((some (a, b), t), n) => ((f a b t).1, n + (f a b t).2)) = _
  rw [h]

theorem bind_of_some {x : Metered τ α} {f : α → Metered τ β} {b r : Bytes} {t t' : τ} {a : α}
    {n : ℕ} (h : x b t = ((some (a, r), t'), n)) :
    (x >>= f) b t = ((f a r t').1, n + (f a r t').2) := by
  change (match x b t with
    | ((none, t), n) => ((none, t), n)
    | ((some (a, b), t), n) => ((f a b t).1, n + (f a b t).2)) = _
  rw [h]

/-- A sequence takes a value when both of its steps do, and spends what they spend. -/
theorem of_bind_some {x : Metered τ α} {f : α → Metered τ β} {b r : Bytes} {t t' : τ} {c : β}
    {n : ℕ} (h : (x >>= f) b t = ((some (c, r), t'), n)) :
    ∃ a m t₁ n₁ n₂, x b t = ((some (a, m), t₁), n₁) ∧ f a m t₁ = ((some (c, r), t'), n₂) ∧
      n = n₁ + n₂ := by
  rcases hx : x b t with ⟨⟨_ | ⟨a, m⟩, t₁⟩, n₁⟩
  · rw [bind_of_none hx] at h
    cases h
  · rw [bind_of_some hx] at h
    obtain ⟨hf, rfl⟩ := Prod.mk.inj h
    exact ⟨a, m, t₁, n₁, (f a m t₁).2, rfl, Prod.ext hf rfl, rfl⟩

/-- A sequence fails in its first step, or in its second. -/
theorem of_bind_none {x : Metered τ α} {f : α → Metered τ β} {b : Bytes} {t t' : τ} {n : ℕ}
    (h : (x >>= f) b t = ((none, t'), n)) :
    x b t = ((none, t'), n) ∨
      ∃ a m t₁ n₁ n₂, x b t = ((some (a, m), t₁), n₁) ∧ f a m t₁ = ((none, t'), n₂) ∧
        n = n₁ + n₂ := by
  rcases hx : x b t with ⟨⟨_ | ⟨a, m⟩, t₁⟩, n₁⟩
  · rw [bind_of_none hx] at h
    cases h
    exact Or.inl rfl
  · rw [bind_of_some hx] at h
    obtain ⟨hf, rfl⟩ := Prod.mk.inj h
    exact Or.inr ⟨a, m, t₁, n₁, (f a m t₁).2, rfl, Prod.ext hf rfl, rfl⟩

/-! ## Credits -/

/-- **A reader that pays for itself**: with `p` credits, and `rate` more for each byte that it
takes, it pays for what it spends, and leaves `s a` credits with the value `a`. Where it fails, the
bytes of the whole input may count as taken. -/
structure Affords (rate p : ℕ) (x : Metered τ α) (s : α → ℕ) : Prop where
  accepted : ∀ {b r : Bytes} {t t' : τ} {a : α} {n : ℕ}, x b t = ((some (a, r), t'), n) →
    n + s a + rate * r.length ≤ p + rate * b.length
  refused : ∀ {b : Bytes} {t t' : τ} {n : ℕ}, x b t = ((none, t'), n) → n ≤ p + rate * b.length

variable {rate p p' q : ℕ} {x : Metered τ α} {s s' : α → ℕ}

/-- **What a reader that pays for itself spends**, whether it takes a value or fails. -/
theorem Affords.spent_le (h : Affords rate p x s) (b : Bytes) (t : τ) :
    x.spent b t ≤ p + rate * b.length := by
  rcases hx : x b t with ⟨⟨_ | ⟨a, r⟩, t'⟩, n⟩
  · rw [spent, hx]
    exact h.refused hx
  · rw [spent, hx]
    exact (Nat.le_add_right n _).trans ((Nat.le_add_right _ _).trans (h.accepted hx))

theorem Affords.pure {a : α} (h : s a ≤ p) : Affords rate p (Pure.pure a : Metered τ α) s where
  accepted := by
    intro b r t t' a' n hx
    cases hx
    rw [Nat.zero_add]
    exact Nat.add_le_add_right h _
  refused := by
    intro b t t' n hx
    cases hx

/-- A sequence: what the first reader leaves with its value is what the second one starts with. -/
theorem Affords.bind {f : α → Metered τ β} {u : β → ℕ} (hx : Affords rate p x s)
    (hf : ∀ a, Affords rate (s a) (f a) u) : Affords rate p (x >>= f) u where
  accepted := by
    intro b r t t' c n h
    obtain ⟨a, m, t₁, n₁, n₂, hxb, hfm, rfl⟩ := of_bind_some h
    have h₁ := hx.accepted hxb
    have h₂ := (hf a).accepted hfm
    omega
  refused := by
    intro b t t' n h
    rcases of_bind_none h with hxb | ⟨a, m, t₁, n₁, n₂, hxb, hfm, rfl⟩
    · exact hx.refused hxb
    · have h₁ := hx.accepted hxb
      have h₂ := (hf a).refused hfm
      omega

/-- Spending takes the credits that are spent. -/
theorem Affords.charge (n : ℕ) :
    Affords rate (n + p) (Metered.charge n : Metered τ Unit) fun _ => p where
  accepted := by
    intro b r t t' a m h
    cases h
    exact le_rfl
  refused := by
    intro b t t' m h
    cases h

/-- A reader that spends nothing leaves the credits it earned with the bytes that it took. -/
theorem Affords.free {read : Bytes → τ → Option (α × Bytes) × τ} {taken : α → ℕ}
    (h : ∀ {b r : Bytes} {t t' : τ} {a : α}, read b t = (some (a, r), t') →
      taken a + r.length ≤ b.length) :
    Affords rate p (Metered.free read) fun a => p + rate * taken a where
  accepted := by
    intro b r t t' a n hx
    obtain ⟨hread, rfl⟩ := Prod.mk.inj hx
    calc 0 + (p + rate * taken a) + rate * r.length = p + rate * (taken a + r.length) := by ring
      _ ≤ p + rate * b.length := Nat.add_le_add_left (Nat.mul_le_mul_left rate (h hread)) p
  refused := by
    intro b t t' n hx
    obtain ⟨-, rfl⟩ := Prod.mk.inj hx
    exact Nat.zero_le _

/-- A reader that holds more credits may leave fewer. -/
theorem Affords.weaken (h : Affords rate p x s) (hp : p ≤ p') (hs : ∀ a, s' a ≤ s a) :
    Affords rate p' x s' where
  accepted := by
    intro b r t t' a n hx
    have h₁ := h.accepted hx
    have h₂ := hs a
    omega
  refused := by
    intro b t t' n hx
    exact (h.refused hx).trans (Nat.add_le_add_right hp _)

/-! ## Exact spendings -/

/-- A value that is taken has cost what `cost` says. -/
def Spends (x : Metered τ α) (cost : α → ℕ) : Prop :=
  ∀ ⦃b r : Bytes⦄ ⦃t t' : τ⦄ ⦃a : α⦄ ⦃n : ℕ⦄, x b t = ((some (a, r), t'), n) → n = cost a

theorem Spends.free (read : Bytes → τ → Option (α × Bytes) × τ) :
    Spends (Metered.free read) fun _ => 0 := by
  intro b r t t' a n h
  obtain ⟨-, rfl⟩ := Prod.mk.inj h
  rfl

theorem Spends.charge (n : ℕ) : Spends (Metered.charge n : Metered τ Unit) fun _ => n := by
  intro b r t t' a m h
  cases h
  rfl

/-- What spends nothing adds nothing. -/
theorem Spends.after_free {read : Bytes → τ → Option (α × Bytes) × τ} {f : α → Metered τ β}
    {cost : β → ℕ} (hf : ∀ a, Spends (f a) cost) : Spends (Metered.free read >>= f) cost := by
  intro b r t t' c n h
  obtain ⟨a, m, t₁, n₁, n₂, hx, hfm, rfl⟩ := of_bind_some h
  rw [Spends.free read hx, Nat.zero_add, hf a hfm]

theorem Spends.pure {a : α} {cost : α → ℕ} (h : cost a = 0) :
    Spends (Pure.pure a : Metered τ α) cost := by
  intro b r t t' a' n hx
  cases hx
  exact h.symm

/-- **Spendings add up.** -/
theorem Spends.bind {f : α → Metered τ β} {cost : α → ℕ} {total : β → ℕ} (hx : Spends x cost)
    (hf : ∀ {a : α} {c : β} {b r : Bytes} {t t' : τ} {n : ℕ}, f a b t = ((some (c, r), t'), n) →
      cost a + n = total c) : Spends (x >>= f) total := by
  intro b r t t' c n h
  obtain ⟨a, m, t₁, n₁, n₂, hxb, hfm, rfl⟩ := of_bind_some h
  rw [hx hxb, hf hfm]

end Metered

end Codec
