import Dingir.Spec.Asset
import Dingir.Lib.Posting

/-!
# What the balance manager does, as postings

Each operation of the balance manager that returns adds amounts to balances:
`Posted bm bm' l` says that `bm'` is `bm` after the postings `l`, for every
single balance and for the total of every asset.

On balances that lie on the grid of their asset (`Gridded`; `set_by_key` rounds,
so every state has it) the two roundings of `add` and `sub` are exact for an
amount on the grid, and the amount posted is the amount asked for.
-/

namespace Dingir

open Keyed Rounding Posting Outcome

variable {E : Env} {bm bm' bm'' : BalanceManager}

/-- `bm'` is `bm` after the postings `l`. -/
structure Posted (bm bm' : BalanceManager) (l : List (BalanceMapKey × Decimal)) : Prop where
  assets : bm'.assetManager = bm.assetManager
  balance : ∀ k, bm'.getByKey k = bm.getByKey k + amountIn (· = k) l
  total : ∀ a, bm'.statusTotal a = bm.statusTotal a + amountIn (·.asset = a) l

theorem Posted.refl (bm : BalanceManager) : Posted bm bm [] := ⟨rfl, by simp, by simp⟩

theorem Posted.trans {l l' : List (BalanceMapKey × Decimal)} (h : Posted bm bm' l)
    (h' : Posted bm' bm'' l') : Posted bm bm'' (l ++ l') := by
  refine ⟨h'.assets.trans h.assets, fun k => ?_, fun a => ?_⟩
  · rw [h'.balance, h.balance, amountIn_append, add_assoc]
  · rw [h'.total, h.total, amountIn_append, add_assoc]

/-- What the postings of a user and an asset add up to, they add to what the user holds. -/
theorem Posted.held {l : List (BalanceMapKey × Decimal)} (h : Posted bm bm' l) (u : Uuid)
    (a : String) :
    bm'.total u a = bm.total u a + amountIn (fun k => k.userId = u ∧ k.asset = a) l := by
  have hsplit := amountIn_split (P := (· = (⟨u, .available, a⟩ : BalanceMapKey)))
    (Q := (· = ⟨u, .freeze, a⟩))
    (R := fun k => k.userId = u ∧ k.asset = a) (fun k => ?_) (fun k hP hQ => ?_) l
  · have havailable := h.balance ⟨u, .available, a⟩
    have hfreeze := h.balance ⟨u, .freeze, a⟩
    unfold BalanceManager.total BalanceManager.get
    rw [havailable, hfreeze, hsplit]
    ring
  · obtain ⟨v, t, b⟩ := k
    cases t <;> simp
  · rw [hP] at hQ
    simp at hQ

/-- Every balance lies on the grid of its asset. -/
def Gridded (bm : BalanceManager) : Prop :=
  ∀ k p, bm.assetManager.assetPrec k.asset = .ok p → OnGrid p (bm.getByKey k)

theorem gridded_empty (am : AssetManager) : Gridded ⟨am, ∅⟩ := fun _ _ _ => OnGrid.zero

/-- Every stored balance is of an asset the manager knows. -/
def BalanceManager.Known (bm : BalanceManager) : Prop :=
  ∀ k, (bm.balances.find? k).isSome → ∃ p, bm.assetManager.assetPrec k.asset = .ok p

theorem known_empty (am : AssetManager) : BalanceManager.Known ⟨am, ∅⟩ :=
  fun k hk => by simp [find?_empty] at hk

/-! ## One balance -/

namespace BalanceManager

theorem getByKey_insert (bm : BalanceManager) (am : AssetManager) (k j : BalanceMapKey)
    (v : Decimal) :
    getByKey ⟨am, bm.balances.insert k v⟩ j = if j = k then v else bm.getByKey j := by
  unfold getByKey
  rw [find?_insert]
  split <;> rfl

theorem statusTotal_insert (bm : BalanceManager) (am : AssetManager) (k : BalanceMapKey)
    (v : Decimal) (a : String) :
    statusTotal ⟨am, bm.balances.insert k v⟩ a =
      bm.statusTotal a + if k.asset = a then v - bm.getByKey k else 0 := by
  unfold statusTotal
  simp only
  rw [hashTally_insert_sub]
  unfold getByKey
  by_cases ha : k.asset = a
  · simp only [ha, if_true]
    cases bm.balances.find? k <;> simp
  · simp only [ha, if_false]
    cases bm.balances.find? k <;> simp

theorem setByKey_ok {k : BalanceMapKey} {v : Decimal} (h : bm.setByKey E k v = .ok bm') :
    ∃ p, bm.assetManager.assetPrec k.asset = .ok p ∧
      bm' = { bm with balances := bm.balances.insert k (roundDp v p) } := by
  simp only [setByKey, bind_ok, pure_ok] at h
  obtain ⟨-, -, p, hp, rfl⟩ := h
  exact ⟨p, hp, rfl⟩

/-- Setting a balance posts the difference to the rounded value. -/
theorem setByKey_posted {k : BalanceMapKey} {v : Decimal} (h : bm.setByKey E k v = .ok bm') :
    ∃ p, bm.assetManager.assetPrec k.asset = .ok p ∧
      Posted bm bm' [(k, roundDp v p - bm.getByKey k)] := by
  obtain ⟨p, hp, rfl⟩ := setByKey_ok h
  refine ⟨p, hp, rfl, fun j => ?_, fun a => ?_⟩
  · rw [getByKey_insert, amountIn_cons, amountIn_nil]
    by_cases hj : j = k
    · subst hj; simp
    · rw [if_neg hj, if_neg (Ne.symm hj)]; simp
  · rw [statusTotal_insert, amountIn_cons, amountIn_nil, add_zero]

theorem setByKey_gridded {k : BalanceMapKey} {v : Decimal} (hg : Gridded bm)
    (h : bm.setByKey E k v = .ok bm') : Gridded bm' := by
  obtain ⟨p, hp, rfl⟩ := setByKey_ok h
  intro j q hq
  rw [getByKey_insert]
  split
  · subst_vars
    rw [Except.ok.inj (hp.symm.trans hq)]
    exact onGrid_roundDp v q
  · exact hg j q hq

theorem add_gridded {u : Uuid} {t : BalanceType} {a : String} {v w : Decimal} (hg : Gridded bm)
    (h : bm.add E u t a v = .ok (w, bm')) : Gridded bm' := by
  simp only [add, bind_ok, pure_ok, Prod.mk.injEq] at h
  obtain ⟨-, -, p, -, bm₁, h, -, rfl⟩ := h
  exact setByKey_gridded hg h

theorem sub_gridded {u : Uuid} {t : BalanceType} {a : String} {v w : Decimal} (hg : Gridded bm)
    (h : bm.sub E u t a v = .ok (w, bm')) : Gridded bm' := by
  simp only [sub, bind_ok, pure_ok, Prod.mk.injEq] at h
  obtain ⟨-, -, p, -, -, -, -, -, bm₁, h, -, rfl⟩ := h
  exact setByKey_gridded hg h

/-- Only a balance of a known asset is set. -/
theorem setByKey_known {k : BalanceMapKey} {v : Decimal} (hk : bm.Known)
    (h : bm.setByKey E k v = .ok bm') : bm'.Known := by
  obtain ⟨p, hp, rfl⟩ := setByKey_ok h
  intro j hj
  rw [show ({ bm with
      balances := bm.balances.insert k (roundDp v p) } : BalanceManager).balances.find? j =
    if j = k then some (roundDp v p) else bm.balances.find? j from find?_insert _ _ _ _] at hj
  split at hj
  · subst_vars
    exact ⟨p, hp⟩
  · exact hk j hj

theorem add_known {u : Uuid} {t : BalanceType} {a : String} {v w : Decimal} (hk : bm.Known)
    (h : bm.add E u t a v = .ok (w, bm')) : bm'.Known := by
  simp only [add, bind_ok, pure_ok, Prod.mk.injEq] at h
  obtain ⟨-, -, p, -, bm₁, h, -, rfl⟩ := h
  exact setByKey_known hk h

theorem sub_known {u : Uuid} {t : BalanceType} {a : String} {v w : Decimal} (hk : bm.Known)
    (h : bm.sub E u t a v = .ok (w, bm')) : bm'.Known := by
  simp only [sub, bind_ok, pure_ok, Prod.mk.injEq] at h
  obtain ⟨-, -, p, -, -, -, -, -, bm₁, h, -, rfl⟩ := h
  exact setByKey_known hk h

/-- With `debug_assert!` compiled in no balance is set below zero. -/
theorem setByKey_nonneg {k j : BalanceMapKey} {v : Decimal} (hE : E.debugAssertions = true)
    (hn : 0 ≤ bm.getByKey j) (h : bm.setByKey E k v = .ok bm') : 0 ≤ bm'.getByKey j := by
  have hv : 0 ≤ v := by
    by_contra hneg
    obtain ⟨_, hassert, -⟩ := bind_ok.1 h
    simp [Env.debugAssert, hE, hneg] at hassert
  obtain ⟨p, hp, rfl⟩ := setByKey_ok h
  rw [getByKey_insert]
  split
  · exact roundDp_nonneg hv
  · exact hn

theorem add_nonneg {u : Uuid} {t : BalanceType} {a : String} {v w : Decimal} {j : BalanceMapKey}
    (hE : E.debugAssertions = true) (hn : 0 ≤ bm.getByKey j) (h : bm.add E u t a v = .ok (w, bm')) :
    0 ≤ bm'.getByKey j := by
  simp only [add, bind_ok, pure_ok, Prod.mk.injEq] at h
  obtain ⟨-, -, p, -, bm₁, h, -, rfl⟩ := h
  exact setByKey_nonneg hE hn h

theorem sub_nonneg {u : Uuid} {t : BalanceType} {a : String} {v w : Decimal} {j : BalanceMapKey}
    (hE : E.debugAssertions = true) (hn : 0 ≤ bm.getByKey j) (h : bm.sub E u t a v = .ok (w, bm')) :
    0 ≤ bm'.getByKey j := by
  simp only [sub, bind_ok, pure_ok, Prod.mk.injEq] at h
  obtain ⟨-, -, p, -, -, -, -, -, bm₁, h, -, rfl⟩ := h
  exact setByKey_nonneg hE hn h

/-- **`add` posts the amount, rounded to the asset's grid.** -/
theorem add_posted {u : Uuid} {t : BalanceType} {a : String} {v w : Decimal} (hg : Gridded bm)
    (h : bm.add E u t a v = .ok (w, bm')) :
    ∃ p, bm.assetManager.assetPrec a = .ok p ∧ Posted bm bm' [(⟨u, t, a⟩, roundDp v p)] := by
  simp only [add, bind_ok, pure_ok, Prod.mk.injEq] at h
  obtain ⟨-, -, p, hp, bm₁, h, -, rfl⟩ := h
  obtain ⟨q, hq, hpost⟩ := setByKey_posted h
  obtain rfl : q = p := Except.ok.inj (hq.symm.trans hp)
  have hgrid := (hg ⟨u, t, a⟩ q hq).add (onGrid_roundDp v q)
  rw [hgrid.roundDp_eq, add_sub_cancel_left] at hpost
  exact ⟨q, hp, hpost⟩

/-- **`sub` posts the rounded amount with a minus.** -/
theorem sub_posted {u : Uuid} {t : BalanceType} {a : String} {v w : Decimal} (hg : Gridded bm)
    (h : bm.sub E u t a v = .ok (w, bm')) :
    ∃ p, bm.assetManager.assetPrec a = .ok p ∧ Posted bm bm' [(⟨u, t, a⟩, -roundDp v p)] := by
  simp only [sub, bind_ok, pure_ok, Prod.mk.injEq] at h
  obtain ⟨-, -, p, hp, -, -, -, -, bm₁, h, -, rfl⟩ := h
  obtain ⟨q, hq, hpost⟩ := setByKey_posted h
  obtain rfl : q = p := Except.ok.inj (hq.symm.trans hp)
  have hgrid := (hg ⟨u, t, a⟩ q hq).sub (onGrid_roundDp v q)
  rw [hgrid.roundDp_eq, sub_sub_cancel_left] at hpost
  exact ⟨q, hp, hpost⟩

/-! ## Freezing -/

theorem frozen_gridded {u : Uuid} {a : String} {v : Decimal} (hg : Gridded bm)
    (h : bm.frozen E u a v = .ok bm') : Gridded bm' := by
  simp only [frozen, bind_ok, pure_ok] at h
  obtain ⟨-, -, p, -, -, -, ⟨w, bm₁⟩, h₁, ⟨w', bm₂⟩, h₂, rfl⟩ := h
  exact add_gridded (sub_gridded hg h₁) h₂

theorem unfrozen_gridded {u : Uuid} {a : String} {v : Decimal} (hg : Gridded bm)
    (h : bm.unfrozen E u a v = .ok bm') : Gridded bm' := by
  simp only [unfrozen, bind_ok, pure_ok] at h
  obtain ⟨-, -, p, -, -, -, ⟨w, bm₁⟩, h₁, ⟨w', bm₂⟩, h₂, rfl⟩ := h
  exact sub_gridded (add_gridded hg h₁) h₂

/-- The balances can be set again one by one: their assets are known, and none is
negative where `debug_assert!` would say so. -/
structure Storable (E : Env) (bm : BalanceManager) : Prop where
  known : bm.Known
  nonneg : E.debugAssertions = true → ∀ k, 0 ≤ bm.getByKey k

theorem frozen_storable {u : Uuid} {a : String} {v : Decimal} (hs : bm.Storable E)
    (h : bm.frozen E u a v = .ok bm') : bm'.Storable E := by
  simp only [frozen, bind_ok, pure_ok] at h
  obtain ⟨-, -, p, -, -, -, ⟨w, bm₁⟩, h₁, ⟨w', bm₂⟩, h₂, rfl⟩ := h
  exact ⟨add_known (sub_known hs.known h₁) h₂,
    fun hE k => add_nonneg hE (sub_nonneg hE (hs.nonneg hE k) h₁) h₂⟩

theorem unfrozen_storable {u : Uuid} {a : String} {v : Decimal} (hs : bm.Storable E)
    (h : bm.unfrozen E u a v = .ok bm') : bm'.Storable E := by
  simp only [unfrozen, bind_ok, pure_ok] at h
  obtain ⟨-, -, p, -, -, -, ⟨w, bm₁⟩, h₁, ⟨w', bm₂⟩, h₂, rfl⟩ := h
  exact ⟨sub_known (add_known hs.known h₁) h₂,
    fun hE k => sub_nonneg hE (add_nonneg hE (hs.nonneg hE k) h₁) h₂⟩

/-- **Freezing an amount on the grid moves it from `AVAILABLE` to `FREEZE`.** -/
theorem frozen_posted {u : Uuid} {a : String} {v : Decimal} {p : ℕ} (hg : Gridded bm)
    (hp : bm.assetManager.assetPrec a = .ok p) (hv : OnGrid p v) (h : bm.frozen E u a v = .ok bm') :
    Posted bm bm' [(⟨u, .available, a⟩, -v), (⟨u, .freeze, a⟩, v)] := by
  simp only [frozen, bind_ok, pure_ok, hp, Except.ok.injEq] at h
  obtain ⟨-, -, _, rfl, -, -, ⟨w, bm₁⟩, h₁, ⟨w', bm₂⟩, h₂, rfl⟩ := h
  rw [hv.roundDp_eq] at h₁ h₂
  obtain ⟨q, hq, hpost₁⟩ := sub_posted hg h₁
  obtain ⟨q', hq', hpost₂⟩ := add_posted (sub_gridded hg h₁) h₂
  rw [hpost₁.assets] at hq'
  obtain rfl : p = q := Except.ok.inj (hp.symm.trans hq)
  obtain rfl : p = q' := Except.ok.inj (hp.symm.trans hq')
  rw [hv.roundDp_eq] at hpost₁ hpost₂
  exact hpost₁.trans hpost₂

theorem unfrozen_posted {u : Uuid} {a : String} {v : Decimal} {p : ℕ} (hg : Gridded bm)
    (hp : bm.assetManager.assetPrec a = .ok p) (hv : OnGrid p v)
    (h : bm.unfrozen E u a v = .ok bm') :
    Posted bm bm' [(⟨u, .available, a⟩, v), (⟨u, .freeze, a⟩, -v)] := by
  simp only [unfrozen, bind_ok, pure_ok, hp, Except.ok.injEq] at h
  obtain ⟨-, -, _, rfl, -, -, ⟨w, bm₁⟩, h₁, ⟨w', bm₂⟩, h₂, rfl⟩ := h
  rw [hv.roundDp_eq] at h₁ h₂
  obtain ⟨q, hq, hpost₁⟩ := add_posted hg h₁
  obtain ⟨q', hq', hpost₂⟩ := sub_posted (add_gridded hg h₁) h₂
  rw [hpost₁.assets] at hq'
  obtain rfl : p = q := Except.ok.inj (hp.symm.trans hq)
  obtain rfl : p = q' := Except.ok.inj (hp.symm.trans hq')
  rw [hv.roundDp_eq] at hpost₁ hpost₂
  exact hpost₁.trans hpost₂

end BalanceManager

end Dingir
