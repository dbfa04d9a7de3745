import HpcAgentBench.Lib.Python
import Mathlib.Data.List.GetD

/-!
# The cores of a judge's slots

Slots are dealt over the NUMA domains, the same number to each, and a domain's slots take equal
shares of its cores.  A domain with fewer cores than slots gives each of them all it has.

## Main results

* `share_disjoint`: two shares of one domain.
* `slotCores_dealt`: which slots share cores.
-/

namespace HpcAgentBench

open List

namespace Judge

/-- The slots a domain holds: `-(-nslots // len(domains))`. -/
def perDomain (domains : List (List ℕ)) (nslots : ℕ) : ℕ :=
  (nslots + domains.length - 1) / domains.length

/-- The cores a slot of a domain gets: share number `i` of `per`, or all when there are too few. -/
def domainShare (domain : List ℕ) (per i : ℕ) : List ℕ :=
  let share := domain.length / per
  if share = 0 then domain else (domain.drop (i * share)).take share

/-- `slot_cores`. -/
def slotCores (domains : List (List ℕ)) (nslots slot : ℕ) : Except PyErr (List ℕ) := do
  if domains.length = 0 then throw .zeroDivision
  let per := perDomain domains nslots
  if per = 0 then throw .zeroDivision
  let domain ← item domains (slot / per)
  return domainShare domain per (slot % per)

variable {domains : List (List ℕ)} {domain : List ℕ} {nslots slot per i j : ℕ}

/-- Every slot has a domain. -/
theorem slot_div_lt (hd : domains ≠ []) (h : slot < nslots) :
    0 < perDomain domains nslots ∧ slot / perDomain domains nslots < domains.length := by
  have hlen : 0 < domains.length := length_pos_iff.2 hd
  have hceil : nslots ≤ domains.length * perDomain domains nslots := by
    have hdiv := Nat.div_add_mod (nslots + domains.length - 1) domains.length
    have hmod := Nat.mod_lt (nslots + domains.length - 1) hlen
    rw [perDomain]
    omega
  have hper : 0 < perDomain domains nslots := Nat.pos_of_ne_zero fun h0 => by
    rw [h0] at hceil
    omega
  exact ⟨hper, Nat.div_lt_of_lt_mul (by rw [Nat.mul_comm]; omega)⟩

theorem domainShare_sublist (domain : List ℕ) (per i : ℕ) :
    (domainShare domain per i).Sublist domain := by
  simp only [domainShare]
  split
  · exact List.Sublist.refl domain
  · exact (take_sublist _ _).trans (drop_sublist _ _)

theorem length_domainShare (hi : i < per) :
    (domainShare domain per i).length =
      if domain.length < per then domain.length else domain.length / per := by
  have hper : 0 < per := by omega
  simp only [domainShare]
  by_cases hlt : domain.length < per
  · rw [if_pos (Nat.div_eq_of_lt hlt), if_pos hlt]
  · rw [if_neg (Nat.ne_of_gt (Nat.div_pos (Nat.not_lt.1 hlt) hper)), if_neg hlt, length_take, length_drop]
    -- the last share ends within the domain
    have hend : (i + 1) * (domain.length / per) ≤ domain.length :=
      Nat.le_trans (Nat.mul_le_mul_right _ hi) (Nat.mul_div_le _ _)
    rw [Nat.succ_mul] at hend
    omega

/-- Two slots of a domain share no core exactly when it has a core for each of its slots. -/
theorem share_disjoint (hnd : domain.Nodup) (hne : domain ≠ []) (hi : i < per) (hij : i ≠ j) :
    (domainShare domain per i).Disjoint (domainShare domain per j) ↔ per ≤ domain.length := by
  have hper : 0 < per := by omega
  simp only [domainShare]
  constructor
  · intro h
    by_contra hlt
    simp only [if_pos (Nat.div_eq_of_lt (Nat.not_le.1 hlt))] at h
    obtain ⟨c, hc⟩ := exists_mem_of_ne_nil domain hne
    exact h hc hc
  · intro hle
    simp only [if_neg (Nat.ne_of_gt (Nat.div_pos hle hper))]
    -- the earlier share ends before the later one begins
    have hbefore {a b : ℕ} (hab : a < b) :
        ((domain.drop (a * (domain.length / per))).take (domain.length / per)).Disjoint
          ((domain.drop (b * (domain.length / per))).take (domain.length / per)) := by
      have hend : a * (domain.length / per) + domain.length / per ≤ b * (domain.length / per) := by
        rw [← Nat.succ_mul]
        exact Nat.mul_le_mul_right _ hab
      intro c hca hcb
      rw [take_drop] at hca
      exact disjoint_take_drop hnd hend (mem_of_mem_drop hca) (mem_of_mem_take hcb)
    rcases Nat.lt_or_gt_of_ne hij with hlt | hgt
    · exact hbefore hlt
    · exact fun c hc hc' => hbefore hgt hc' hc

/-- **Every slot lies in its own domain, with an equal share of its cores, or all of them when there
are fewer cores than slots.  Two slots share no core exactly when they lie in different domains or
their domain has a core for each of its slots.** -/
theorem slotCores_dealt (hdisj : domains.Pairwise List.Disjoint)
    (hdomain : ∀ domain ∈ domains, domain ≠ [] ∧ domain.Nodup) (hd : domains ≠ []) (nslots : ℕ) :
    ∃ cores : ℕ → List ℕ, ∀ slot < nslots,
      slotCores domains nslots slot = .ok (cores slot) ∧
      ∃ domain, domains[slot / perDomain domains nslots]? = some domain ∧
        (cores slot).Sublist domain ∧
        (cores slot).length = (if domain.length < perDomain domains nslots then domain.length
          else domain.length / perDomain domains nslots) ∧
        ∀ other < nslots, other ≠ slot → ((cores slot).Disjoint (cores other) ↔
          slot / perDomain domains nslots ≠ other / perDomain domains nslots ∨
            perDomain domains nslots ≤ domain.length) := by
  have hdiv {slot : ℕ} (h : slot < nslots) := slot_div_lt hd h
  generalize hper : perDomain domains nslots = per at hdiv ⊢
  have hget {slot : ℕ} (h : slot < nslots) :
      domains[slot / per]? = some (domains.getD (slot / per) []) := by
    rw [getD_eq_getElem _ _ (hdiv h).2, getElem?_eq_getElem (hdiv h).2]
  refine ⟨fun slot => domainShare (domains.getD (slot / per) []) per (slot % per),
    fun slot hslot => ⟨?_, _, hget hslot, domainShare_sublist _ _ _,
      length_domainShare (Nat.mod_lt _ (hdiv hslot).1), fun other hother hne => ?_⟩⟩
  · have hlen : domains.length ≠ 0 := fun h => hd (length_eq_zero_iff.1 h)
    simp only [slotCores, hper, if_neg hlen, if_neg (Nat.ne_of_gt (hdiv hslot).1), item,
      hget hslot]
    rfl
  dsimp only
  by_cases hsame : slot / per = other / per
  · have hmod : slot % per ≠ other % per := fun h => hne <| by
      rw [← Nat.div_add_mod other per, ← Nat.div_add_mod slot per, hsame, h]
    obtain ⟨hnil, hnd⟩ := hdomain _ (mem_of_getElem? (hget hslot))
    rw [← hsame, share_disjoint hnd hnil (Nat.mod_lt _ (hdiv hslot).1) hmod]
    simp
  · refine iff_of_true (fun c hc hc' => ?_) (.inl hsame)
    have hc := (domainShare_sublist _ _ _).mem hc
    have hc' := (domainShare_sublist _ _ _).mem hc'
    -- different domains have no core in common
    rw [getD_eq_getElem _ _ (hdiv hslot).2] at hc
    rw [getD_eq_getElem _ _ (hdiv hother).2] at hc'
    rcases Nat.lt_or_gt_of_ne hsame with hlt | hgt
    · exact pairwise_iff_getElem.1 hdisj _ _ _ _ hlt hc hc'
    · exact pairwise_iff_getElem.1 hdisj _ _ _ _ hgt hc' hc

theorem slotCores_dealt_four :
    ∃ cores : ℕ → List ℕ, ∀ slot < 4,
      slotCores [[0, 1, 2], [3, 4]] 4 slot = .ok (cores slot) ∧
        ∀ other < 4, other ≠ slot → (cores slot).Disjoint (cores other) := by
  obtain ⟨cores, h⟩ := @slotCores_dealt [[0, 1, 2], [3, 4]] (by simp) (by simp) (by simp) 4
  refine ⟨cores, fun slot hslot => ⟨(h slot hslot).1, fun other hother hne => ?_⟩⟩
  obtain ⟨domain, hdomain, -, -, hdisj⟩ := (h slot hslot).2
  refine (hdisj other hother hne).2 (.inr ?_)
  rcases mem_of_getElem? hdomain with _ | ⟨_, _ | ⟨_, h⟩⟩
  · decide
  · decide
  · cases h

/-- One core for two slots: both get it. -/
theorem slotCores_shared :
    slotCores [[0]] 2 0 = .ok [0] ∧ slotCores [[0]] 2 1 = .ok [0] ∧ ¬ List.Disjoint [0] [0] :=
  ⟨rfl, rfl, fun h => h (.head _) (.head _)⟩

end Judge

end HpcAgentBench
