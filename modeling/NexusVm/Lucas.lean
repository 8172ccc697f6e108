import Mathlib.Algebra.BigOperators.Associated
import Mathlib.Data.Nat.Size
import Mathlib.NumberTheory.LucasPrimality

/-!
# Primes by Lucas' test

A number whose predecessor is factored is prime if some base has the order `p - 1`.  The powers are
computed with an accumulator, so that the test is evaluated by the kernel also for large numbers.
-/

namespace NexusVm.Lucas

/-- `acc * a ^ e` modulo `m`, for an exponent of at most `fuel` bits. -/
def powMod (m : ℕ) : ℕ → ℕ → ℕ → ℕ → ℕ
  | 0, acc, _, _ => acc
  | fuel + 1, acc, a, e =>
      powMod m fuel (if e % 2 = 1 then acc * a % m else acc) (a * a % m) (e / 2)

theorem powMod_modEq {m fuel e : ℕ} (he : e < 2 ^ fuel) (acc a : ℕ) :
    powMod m fuel acc a e ≡ acc * a ^ e [MOD m] := by
  induction fuel generalizing e acc a with
  | zero =>
      rw [pow_zero, Nat.lt_one_iff] at he
      rw [he, pow_zero, mul_one]
      exact Nat.ModEq.refl acc
  | succ fuel ih =>
      have hhalf : e / 2 < 2 ^ fuel := by
        rw [pow_succ] at he
        omega
      have hsquare : (a * a % m) ^ (e / 2) ≡ a ^ (2 * (e / 2)) [MOD m] := by
        rw [pow_mul, pow_two]
        exact (Nat.mod_modEq (a * a) m).pow _
      have hexp := Nat.div_add_mod e 2
      rw [powMod]
      refine (ih hhalf _ _).trans ?_
      split_ifs with hodd
      · rw [hodd] at hexp
        calc acc * a % m * (a * a % m) ^ (e / 2)
            ≡ acc * a * a ^ (2 * (e / 2)) [MOD m] := (Nat.mod_modEq _ m).mul hsquare
          _ = acc * a ^ e := by rw [mul_assoc, ← pow_succ', hexp]
      · have heven : e % 2 = 0 := by omega
        rw [heven, add_zero] at hexp
        rw [hexp] at hsquare
        exact hsquare.mul_left acc

/-- Lucas' test for `p` with a base, where `p - 1` is a product of prime powers. -/
def test (p a : ℕ) (factors : List (ℕ × ℕ)) : Bool :=
  let power e := powMod p p.size 1 a e % p
  decide (1 < p) && (factors.map fun f => f.1 ^ f.2).prod == p - 1 && power (p - 1) == 1 &&
    factors.all fun f => power ((p - 1) / f.1) != 1

/-- **Lucas' test**: a number that passes with prime factors is prime. -/
theorem prime_of_test {p a : ℕ} {factors : List (ℕ × ℕ)} (hprime : ∀ f ∈ factors, f.1.Prime)
    (h : test p a factors = true) : p.Prime := by
  simp only [test, Bool.and_eq_true, decide_eq_true_eq, beq_iff_eq, List.all_eq_true,
    bne_iff_ne] at h
  obtain ⟨⟨⟨hp, hprod⟩, hone⟩, hne⟩ := h
  have hpower : ∀ e ≤ p - 1, (a : ZMod p) ^ e = 1 ↔ powMod p p.size 1 a e % p = 1 := by
    intro e he
    have hsize : e < 2 ^ p.size := lt_of_le_of_lt (by omega) (Nat.lt_size_self p)
    have hmod : powMod p p.size 1 a e ≡ 1 * a ^ e [MOD p] := powMod_modEq hsize 1 a
    rw [one_mul] at hmod
    have hcast : (a : ZMod p) ^ e = 1 ↔ a ^ e ≡ 1 [MOD p] := by
      rw [← ZMod.natCast_eq_natCast_iff, Nat.cast_pow, Nat.cast_one]
    rw [hcast, Nat.ModEq, hmod, Nat.mod_eq_of_lt hp]
  apply lucas_primality p a ((hpower _ le_rfl).mpr hone)
  intro q hq hdvd
  rw [← hprod] at hdvd
  obtain ⟨x, hx, hqx⟩ := hq.prime.dvd_prod_iff.mp hdvd
  obtain ⟨f, hf, rfl⟩ := List.mem_map.mp hx
  have hqf : q = f.1 := (Nat.prime_dvd_prime_iff_eq hq (hprime f hf)).mp (hq.dvd_of_dvd_pow hqx)
  rw [Ne, hpower _ (Nat.div_le_self _ _), hqf]
  exact hne f hf

/-- A table of numbers with their bases and factorisations, each with factors that are known or
stand below it. -/
def checks (known : List ℕ) : List (ℕ × ℕ × List (ℕ × ℕ)) → Bool
  | [] => true
  | (p, a, factors) :: rest =>
      test p a factors &&
        (factors.all fun f => known.contains f.1 || rest.any fun entry => entry.1 == f.1) &&
        checks known rest

/-- Every number of a table is prime. -/
theorem prime_of_checks {known : List ℕ} (hknown : ∀ q ∈ known, q.Prime)
    {table : List (ℕ × ℕ × List (ℕ × ℕ))} (h : checks known table = true) :
    ∀ entry ∈ table, entry.1.Prime := by
  induction table with
  | nil =>
      intro entry hentry
      exact absurd hentry List.not_mem_nil
  | cons entry rest ih =>
      obtain ⟨p, a, factors⟩ := entry
      simp only [checks, Bool.and_eq_true, List.all_eq_true, Bool.or_eq_true, List.any_eq_true,
        List.contains_iff_mem, beq_iff_eq] at h
      obtain ⟨⟨htest, hfactors⟩, hrest⟩ := h
      have hp : p.Prime := by
        apply prime_of_test _ htest
        intro f hf
        rcases hfactors f hf with hmem | ⟨below, hbelow, heq⟩
        · exact hknown f.1 hmem
        · rw [← heq]
          exact ih hrest below hbelow
      intro entry hentry
      rcases List.mem_cons.mp hentry with rfl | hmem
      · exact hp
      · exact ih hrest entry hmem

end NexusVm.Lucas
