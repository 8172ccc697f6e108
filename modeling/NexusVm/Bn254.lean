import Mathlib.Tactic.NormNum.Prime
import NexusVm.Lucas

/-!
# The fields of BN254

`nova` folds over the cycle of BN254 and Grumpkin, whose scalar and base fields have these orders.
-/

namespace NexusVm.Bn254

/-- The order of the scalar field of BN254, and of the base field of Grumpkin. -/
def fr : ℕ := 21888242871839275222246405745257275088548364400416034343698204186575808495617

/-- The order of the base field of BN254, and of the scalar field of Grumpkin. -/
def fq : ℕ := 21888242871839275222246405745257275088696311157297823662689037894645226208583

/-- Primes that divide the predecessors of the primes in the table. -/
def smallPrimes : List ℕ :=
  [2, 3, 5, 7, 11, 13, 17, 19, 29, 31, 37, 41, 67, 73, 83, 89, 107, 109, 229, 233, 271, 311, 379,
   449, 661, 823, 853, 911, 983, 1231, 1637, 3557, 3691, 4999, 11003, 13327, 41927]

theorem prime_of_mem_smallPrimes : ∀ p ∈ smallPrimes, p.Prime := by
  simp only [smallPrimes, List.forall_mem_cons]
  norm_num

/-- Each prime with a primitive root and the factors of its predecessor. -/
def table : List (ℕ × ℕ × List (ℕ × ℕ)) :=
  [(21888242871839275222246405745257275088696311157297823662689037894645226208583, 3, [(2, 1),
      (3, 2), (13, 1), (29, 1), (67, 1), (229, 1), (311, 1), (983, 1), (11003, 1), (405928799, 1),
      (11465965001, 1), (13427688667394608761327070753331941386769, 1)]),
   (21888242871839275222246405745257275088548364400416034343698204186575808495617, 5, [(2, 28),
      (3, 2), (13, 1), (29, 1), (983, 1), (11003, 1), (237073, 1), (405928799, 1),
      (1670836401704629, 1), (13818364434197438864469338081, 1)]),
   (13427688667394608761327070753331941386769, 17, [(2, 4), (3, 1), (7, 1), (11, 1), (1853641, 1),
      (4562087, 1), (173171039, 1), (2480874801745591, 1)]),
   (13818364434197438864469338081, 3, [(2, 5), (5, 1), (823, 1), (1593227, 1),
      (65865678001877903, 1)]),
   (65865678001877903, 5, [(2, 1), (83, 1), (379, 1), (1637, 1), (639533339, 1)]),
   (2480874801745591, 6, [(2, 1), (3, 2), (5, 1), (19, 1), (41, 1), (35385462869, 1)]),
   (1670836401704629, 2, [(2, 2), (3, 4), (5156902474397, 1)]),
   (5156902474397, 2, [(2, 2), (107, 1), (12048837557, 1)]),
   (35385462869, 2, [(2, 2), (7, 1), (1263766531, 1)]),
   (12048837557, 2, [(2, 2), (7, 2), (661, 1), (93001, 1)]),
   (11465965001, 3, [(2, 3), (5, 4), (7, 1), (327599, 1)]),
   (1263766531, 10, [(2, 1), (3, 1), (5, 1), (13, 1), (911, 1), (3557, 1)]),
   (639533339, 2, [(2, 1), (229, 1), (853, 1), (1637, 1)]),
   (405928799, 22, [(2, 1), (11, 1), (3691, 1), (4999, 1)]),
   (173171039, 13, [(2, 1), (73, 1), (89, 1), (13327, 1)]),
   (4562087, 5, [(2, 1), (17, 1), (109, 1), (1231, 1)]),
   (1853641, 17, [(2, 3), (3, 2), (5, 1), (19, 1), (271, 1)]),
   (1593227, 2, [(2, 1), (19, 1), (41927, 1)]),
   (327599, 19, [(2, 1), (19, 1), (37, 1), (233, 1)]),
   (237073, 15, [(2, 4), (3, 1), (11, 1), (449, 1)]),
   (93001, 14, [(2, 3), (3, 1), (5, 3), (31, 1)])]

theorem checks_table : Lucas.checks smallPrimes table = true := by decide +kernel

instance : Fact fr.Prime := by
  constructor
  apply Lucas.prime_of_checks prime_of_mem_smallPrimes checks_table (fr, _)
  exact List.mem_cons_of_mem _ List.mem_cons_self

instance : Fact fq.Prime := by
  constructor
  apply Lucas.prime_of_checks prime_of_mem_smallPrimes checks_table (fq, _)
  exact List.mem_cons_self

theorem fr_le_fq_sq : fr ≤ fq ^ 2 := by decide

end NexusVm.Bn254
