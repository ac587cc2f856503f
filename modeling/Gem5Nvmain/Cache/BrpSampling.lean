import Gem5Nvmain.Cache.BrpPartition
import Gem5Nvmain.Cache.StackPolicies

/- Where BRP puts a block (`BRP::setRecord`, `BRP::insertBlock`, `BRP::accessBlock`).

  `core_sampling` adds up the ways that a core has in the sampled sets, at most 32 of them, on top of its last value,
  and is then divided by 32. With at most 31 ways it stays between 0 and the number of ways (`Sampled`), whatever the
  shadow counters are, and so the place of a new block is a way of its set. The loops that move a block begin at or
  before its way, so they find it. -/
namespace Gem5.Cache
open Lib Gem5.Mem Tags List

variable {p : TagParams} {t t' u : Tags BrpState}

/-- The shares of all sets, and what was sampled from them. -/
structure Sampled (p : TagParams) (x : BrpState) : Prop where
  samplings : x.coreSampling.length = numCore
  sampling : ∀ c ∈ x.coreSampling, 0 ≤ c ∧ c ≤ p.assoc
  cores : x.core.length = p.numSets
  shares : ∀ core ∈ x.core, Shares numCore p.assoc core

theorem Sampled.new (p : TagParams) : Sampled p (BrpState.new p) where
  samplings := length_replicate
  sampling c hc := by
    rw [eq_of_mem_replicate hc, numCore]
    omega
  cores := length_replicate
  shares core hcore := by
    rw [eq_of_mem_replicate hcore]
    refine ⟨length_replicate, fun c hc => ?_, ?_⟩
    · rw [eq_of_mem_replicate hc]
      exact Int.natCast_nonneg _
    · simp only [numCore, replicate, sum_cons, sum_nil]
      omega

/-- A step that changes neither the shares nor the samples. -/
def SameShares (t t' : Tags BrpState) : Prop :=
  t'.policy.core = t.policy.core ∧ t'.policy.coreSampling = t.policy.coreSampling

theorem SameShares.of_policy (h : t'.policy = t.policy) : SameShares t t' := by
  unfold SameShares
  rw [h]
  exact ⟨rfl, rfl⟩

theorem SameShares.trans (h : SameShares t u) (h' : SameShares u t') : SameShares t t' :=
  ⟨h'.1.trans h.1, h'.2.trans h.2⟩

theorem Sampled.same (h : Sampled p t.policy) (hsame : SameShares t t') : Sampled p t'.policy := by
  obtain ⟨hcore, hsampling⟩ := hsame
  constructor
  · rw [hsampling]
    exact h.samplings
  · rw [hsampling]
    exact h.sampling
  · rw [hcore]
    exact h.cores
  · rw [hcore]
    exact h.shares

/-! ## Sampled sets -/

variable {x : BrpState}

variable {maxRatioIndex : Nat}

variable {addr : Nat} {cmd : MemCmd} {portId : Int}

variable {pkt : Packet} {i : Nat}

variable {l : List Nat}

variable {blk : Nat}

variable {k : Nat}

theorem portCore_lt (h : portCore portId = .ok k) : k < numCore := by
  unfold portCore at h
  split at h
  · cases h
    omega
  · cases h

theorem recordBrp_ok (t : Tags BrpState) (addr : Nat) (cmd : MemCmd) (hk : portCore portId = .ok k) :
    ∃ t', recordBrp p t addr cmd portId = .ok t' := by
  unfold recordBrp
  rw [hk, bind_ok]
  simp only
  split
  · exact ⟨_, rfl⟩
  · exact ⟨_, rfl⟩

end Gem5.Cache
