import Gem5Nvmain.Nvm.Request
import Gem5Nvmain.Lib.Exec
import Gem5Nvmain.Lib.MixedRadix
import Mathlib.Data.Fintype.Card
import Mathlib.Tactic.Ring

/- The number of a command queue as the code computes it, in 64 bits (MemoryController::SetConfig,
  MemoryController::GetCommandQueueId).

  Each pair of a queue model and a scheduling scheme numbers the queues in a mixed radix (`queueDigits`), and the
  number of queues is the product of the radices, both modulo 2^64. As long as the product fits, the numbers are below
  it and say which queue an address belongs to. If it does not fit there are more queues than numbers. With a queue
  for each bank the code has a branch for the schemes 1 and 2 only: any other leaves the initial value, which is above
  every number of queues. -/
namespace Nvm
open Lib Nat

structure QueueConfig where
  ranks : BitVec 64
  banks : BitVec 64
  subArrayNum : BitVec 64
  queueModel : QueueModel
  scheduleScheme : Int
  ranks_pos : 0 < ranks.toNat
  banks_pos : 0 < banks.toNat
  subArrayNum_pos : 0 < subArrayNum.toNat

/-- The fields of an address that a queue number depends on. -/
structure QueueAddress where
  rank : BitVec 64
  bank : BitVec 64
  subarray : BitVec 64

namespace QueueConfig
variable (p : QueueConfig)

def commandQueueCount : BitVec 64 :=
  match p.queueModel with
  | .perRank => p.ranks
  | .perBank => p.ranks * p.banks
  | .perSubArray => p.ranks * p.banks * p.subArrayNum

/-- `queueId` when the assertion of `GetCommandQueueId` is reached. -/
def queueId (a : QueueAddress) : BitVec 64 :=
  match p.queueModel with
  | .perRank => a.rank
  | .perBank =>
    if p.scheduleScheme = 1 then a.bank * p.ranks + a.rank
    else if p.scheduleScheme = 2 then a.rank * p.banks + a.bank
    else BitVec.allOnes 64
  | .perSubArray => a.rank * p.banks * p.subArrayNum + a.bank * p.subArrayNum + a.subarray

def getCommandQueueId (a : QueueAddress) : Except Stop (BitVec 64) := do
  require (decide (p.queueId a < p.commandQueueCount))
  pure (p.queueId a)

/-! ## What the numbers are for -/

structure InRange (a : QueueAddress) : Prop where
  rank : a.rank.toNat < p.ranks.toNat
  bank : a.bank.toNat < p.banks.toNat
  subarray : a.subarray.toNat < p.subArrayNum.toNat

/-- The addresses belong to one queue, as the queue model says. -/
def SameQueue (a b : QueueAddress) : Prop :=
  match p.queueModel with
  | .perRank => a.rank = b.rank
  | .perBank => a.rank = b.rank ∧ a.bank = b.bank
  | .perSubArray => a.rank = b.rank ∧ a.bank = b.bank ∧ a.subarray = b.subarray

/-- Every address has a number below the number of queues, and two have the same one exactly when they belong to one
  queue. -/
structure Numbered : Prop where
  defined : ∀ a, p.InRange a → ∃ id, p.getCommandQueueId a = .ok id ∧ id < p.commandQueueCount
  shared : ∀ a b, p.InRange a → p.InRange b → (p.getCommandQueueId a = p.getCommandQueueId b ↔ p.SameQueue a b)

/-- The number of queues that the queue model asks for. -/
def queues : Nat :=
  match p.queueModel with
  | .perRank => p.ranks.toNat
  | .perBank => p.ranks.toNat * p.banks.toNat
  | .perSubArray => p.ranks.toNat * p.banks.toNat * p.subArrayNum.toNat

/-! ## Numbers in mixed radix -/

inductive Digit where
  | rank | bank | subarray
  deriving DecidableEq

def radix : Digit → Nat
  | .rank => p.ranks.toNat
  | .bank => p.banks.toNat
  | .subarray => p.subArrayNum.toNat

/-- From the lowest digit to the highest one. -/
def queueDigits : List Digit :=
  match p.queueModel with
  | .perRank => [.rank]
  | .perBank => if p.scheduleScheme = 1 then [.rank, .bank] else [.bank, .rank]
  | .perSubArray => [.subarray, .bank, .rank]

/-- There is a branch for the scheme. -/
def Scheduled : Prop := p.queueModel = .perBank → p.scheduleScheme = 1 ∨ p.scheduleScheme = 2

end QueueConfig

def QueueAddress.digit (a : QueueAddress) : QueueConfig.Digit → Nat
  | .rank => a.rank.toNat
  | .bank => a.bank.toNat
  | .subarray => a.subarray.toNat

namespace QueueConfig
variable {p : QueueConfig} {a b : QueueAddress}

theorem nodup_queueDigits : p.queueDigits.Nodup := by
  unfold queueDigits
  cases p.queueModel with
  | perRank => exact List.nodup_singleton _
  | perBank =>
    show (if p.scheduleScheme = 1 then [Digit.rank, .bank] else [.bank, .rank]).Nodup
    split <;> decide
  | perSubArray =>
    show [Digit.subarray, .bank, .rank].Nodup
    decide

theorem size_queueDigits : size p.radix p.queueDigits = p.queues := by
  unfold queueDigits queues Lib.size
  cases p.queueModel with
  | perRank => simp [radix]
  | perBank =>
    simp only
    split
    · simp [radix]
    · simp [radix, mul_comm]
  | perSubArray =>
    simp only [List.map_cons, List.map_nil, List.prod_cons, List.prod_nil, radix]
    ring

theorem radix_pos (k : Digit) : 0 < p.radix k := by
  cases k with
  | rank => exact p.ranks_pos
  | bank => exact p.banks_pos
  | subarray => exact p.subArrayNum_pos

theorem radix_lt (k : Digit) : p.radix k < 2 ^ 64 := by
  cases k with
  | rank => exact p.ranks.isLt
  | bank => exact p.banks.isLt
  | subarray => exact p.subArrayNum.isLt

theorem InRange.digit (h : p.InRange a) (k : Digit) : a.digit k < p.radix k := by
  cases k with
  | rank => exact h.rank
  | bank => exact h.bank
  | subarray => exact h.subarray

theorem sameQueue_iff : p.SameQueue a b ↔ ∀ k ∈ p.queueDigits, a.digit k = b.digit k := by
  unfold SameQueue queueDigits
  cases p.queueModel with
  | perRank => simp [QueueAddress.digit, BitVec.toNat_inj]
  | perBank =>
    simp only
    split
    · simp [QueueAddress.digit, BitVec.toNat_inj]
    · simp [QueueAddress.digit, BitVec.toNat_inj, and_comm]
  | perSubArray =>
    simp only [List.forall_mem_cons, QueueAddress.digit, BitVec.toNat_inj]
    constructor
    · intro ⟨hr, hb, hs⟩
      exact ⟨hs, hb, hr, fun _ h => absurd h List.not_mem_nil⟩
    · intro ⟨hs, hb, hr, _⟩
      exact ⟨hr, hb, hs⟩

theorem commandQueueCount_toNat : p.commandQueueCount.toNat = p.queues % 2 ^ 64 := by
  unfold commandQueueCount queues
  cases p.queueModel with
  | perRank => exact (mod_eq_of_lt p.ranks.isLt).symm
  | perBank => exact BitVec.toNat_mul ..
  | perSubArray =>
    simp only [BitVec.toNat_mul]
    rw [mod_mul_mod]

/-- Where there is a branch, the number is the digits of the address in mixed radix, as far as 64 bits hold it. -/
theorem queueId_toNat (hs : p.Scheduled) : (p.queueId a).toNat = pack p.radix p.queueDigits a.digit % 2 ^ 64 := by
  unfold queueId queueDigits
  cases hm : p.queueModel with
  | perRank =>
    show a.rank.toNat = (a.rank.toNat + p.ranks.toNat * 0) % 2 ^ 64
    rw [mul_zero, add_zero, mod_eq_of_lt a.rank.isLt]
  | perBank =>
    by_cases h1 : p.scheduleScheme = 1
    · rw [if_pos h1, if_pos h1]
      simp only [BitVec.toNat_add, BitVec.toNat_mul, pack, radix, QueueAddress.digit, mod_add_mod]
      congr 1
      ring
    · have h2 : p.scheduleScheme = 2 := (hs hm).resolve_left h1
      rw [if_neg h1, if_neg h1, if_pos h2]
      simp only [BitVec.toNat_add, BitVec.toNat_mul, pack, radix, QueueAddress.digit, mod_add_mod]
      congr 1
      ring
  | perSubArray =>
    simp only [BitVec.toNat_add, BitVec.toNat_mul, pack, radix, QueueAddress.digit, mod_add_mod,
      add_mod_mod, mod_mul_mod]
    congr 1
    ring

theorem queueId_eq_pack (hs : p.Scheduled) (hfit : p.queues < 2 ^ 64) (ha : p.InRange a) :
    (p.queueId a).toNat = pack p.radix p.queueDigits a.digit := by
  have hlt : pack p.radix p.queueDigits a.digit < p.queues := by
    rw [← size_queueDigits]
    exact pack_lt fun k _ => ha.digit k
  rw [queueId_toNat hs, mod_eq_of_lt (by omega)]

theorem getCommandQueueId_eq (h : p.queueId a < p.commandQueueCount) : p.getCommandQueueId a = .ok (p.queueId a) := by
  unfold getCommandQueueId
  rw [decide_eq_true h]
  rfl

theorem getCommandQueueId_ok {id : BitVec 64} (h : p.getCommandQueueId a = .ok id) :
    id = p.queueId a ∧ p.queueId a < p.commandQueueCount := by
  obtain ⟨u, hreq, hresult⟩ := of_bind h
  exact ⟨(Except.ok.inj hresult).symm, of_decide_eq_true (require_eq_ok.mp hreq)⟩

/-! ## When every address has its number -/

theorem numbered_of_fits (hs : p.Scheduled) (hfit : p.queues < 2 ^ 64) : p.Numbered := by
  have hlt : ∀ a, p.InRange a → p.queueId a < p.commandQueueCount := by
    intro a ha
    rw [BitVec.lt_def, queueId_eq_pack hs hfit ha, commandQueueCount_toNat, mod_eq_of_lt hfit, ← size_queueDigits]
    exact pack_lt fun k _ => ha.digit k
  constructor
  · intro a ha
    exact ⟨p.queueId a, getCommandQueueId_eq (hlt a ha), hlt a ha⟩
  · intro a b ha hb
    rw [getCommandQueueId_eq (hlt a ha), getCommandQueueId_eq (hlt b hb), Except.ok.injEq, ← BitVec.toNat_inj,
      queueId_eq_pack hs hfit ha, queueId_eq_pack hs hfit hb, sameQueue_iff]
    constructor
    · intro heq k hk
      rw [← unpack_pack (g := fun _ => 0) nodup_queueDigits (fun k _ => ha.digit k) hk, heq,
        unpack_pack nodup_queueDigits (fun k _ => hb.digit k) hk]
    · exact pack_congr

/-- The address with the digits `f`. -/
def ofDigits (f : Digit → Nat) : QueueAddress where
  rank := BitVec.ofNat 64 (f .rank)
  bank := BitVec.ofNat 64 (f .bank)
  subarray := BitVec.ofNat 64 (f .subarray)

theorem digit_ofDigits {f : Digit → Nat} (hf : ∀ k, f k < p.radix k) (k : Digit) : (ofDigits f).digit k = f k := by
  have hlt : f k < 2 ^ 64 := lt_trans (hf k) (radix_lt k)
  cases k <;> exact (BitVec.toNat_ofNat _ _).trans (mod_eq_of_lt hlt)

theorem inRange_ofDigits {f : Digit → Nat} (hf : ∀ k, f k < p.radix k) : p.InRange (ofDigits f) := by
  constructor
  · exact (digit_ofDigits hf .rank).trans_lt (hf .rank)
  · exact (digit_ofDigits hf .bank).trans_lt (hf .bank)
  · exact (digit_ofDigits hf .subarray).trans_lt (hf .subarray)

/-- The digits of the `n`-th queue. -/
def digitsOf (p : QueueConfig) (n : Nat) : Digit → Nat := unpack p.radix p.queueDigits n fun _ => 0

theorem digitsOf_lt (n : Nat) (k : Digit) : digitsOf p n k < p.radix k := by
  by_cases hk : k ∈ p.queueDigits
  · exact unpack_lt (radix_pos k) hk
  · unfold digitsOf
    rw [unpack_of_notMem hk]
    exact radix_pos k

theorem Numbered.scheduled (h : p.Numbered) : p.Scheduled := by
  intro hm
  by_contra hne
  obtain ⟨h1, h2⟩ := not_or.mp hne
  obtain ⟨id, hid, -⟩ := h.defined (ofDigits fun _ => 0) (inRange_ofDigits radix_pos)
  have hlt := (getCommandQueueId_ok hid).2
  have hmax : p.queueId (ofDigits fun _ => 0) = BitVec.allOnes 64 := by
    unfold queueId
    rw [hm]
    show (if p.scheduleScheme = 1 then _ else if p.scheduleScheme = 2 then _ else _) = _
    rw [if_neg h1, if_neg h2]
  rw [hmax, BitVec.lt_def, BitVec.toNat_allOnes] at hlt
  omega

/-- Numbered queues are not more than the numbers below their count, and the count is cut to 64 bits. -/
theorem Numbered.fits (h : p.Numbered) : p.queues < 2 ^ 64 := by
  have hlt : ∀ n, p.queueId (ofDigits (digitsOf p n)) < p.commandQueueCount := by
    intro n
    obtain ⟨id, hid, -⟩ := h.defined _ (inRange_ofDigits (digitsOf_lt n))
    exact (getCommandQueueId_ok hid).2
  let number (n : Fin p.queues) : Fin (p.queues % 2 ^ 64) :=
    ⟨(p.queueId (ofDigits (digitsOf p n))).toNat, commandQueueCount_toNat ▸ hlt n⟩
  have hinj : Function.Injective number := by
    intro m n heq
    have hid : p.queueId (ofDigits (digitsOf p m)) = p.queueId (ofDigits (digitsOf p n)) :=
      BitVec.eq_of_toNat_eq (Fin.mk.inj heq)
    have hsame := (h.shared _ _ (inRange_ofDigits (digitsOf_lt m)) (inRange_ofDigits (digitsOf_lt n))).mp
      (by rw [getCommandQueueId_eq (hlt m), getCommandQueueId_eq (hlt n), hid])
    have hdigits : ∀ k ∈ p.queueDigits, digitsOf p m k = digitsOf p n k := by
      intro k hk
      rw [← digit_ofDigits (digitsOf_lt m) k, sameQueue_iff.mp hsame k hk, digit_ofDigits (digitsOf_lt n) k]
    apply Fin.ext
    calc
      (m : Nat) = m % size p.radix p.queueDigits := by
        rw [size_queueDigits, mod_eq_of_lt m.isLt]
      _ = pack p.radix p.queueDigits (digitsOf p m) := (pack_unpack nodup_queueDigits).symm
      _ = pack p.radix p.queueDigits (digitsOf p n) := pack_congr hdigits
      _ = n % size p.radix p.queueDigits := pack_unpack nodup_queueDigits
      _ = n := by rw [size_queueDigits, mod_eq_of_lt n.isLt]
  have hcard := Fintype.card_le_of_injective number hinj
  rw [Fintype.card_fin, Fintype.card_fin] at hcard
  exact Nat.lt_of_le_of_lt hcard (Nat.mod_lt _ (Nat.two_pow_pos 64))

/-- The queues are numbered exactly when there is a branch for the scheme and their number fits into 64 bits. -/
theorem numbered_iff :
    p.Numbered ↔ (p.queueModel = .perBank → p.scheduleScheme = 1 ∨ p.scheduleScheme = 2) ∧ p.queues < 2 ^ 64 := by
  constructor
  · exact fun h => ⟨h.scheduled, h.fits⟩
  · exact fun ⟨hs, hfit⟩ => numbered_of_fits hs hfit

/-- One queue for the one bank, fixed scheduling. -/
def fixedScheduling : QueueConfig where
  ranks := 1
  banks := 1
  subArrayNum := 1
  queueModel := .perBank
  scheduleScheme := 0
  ranks_pos := by decide
  banks_pos := by decide
  subArrayNum_pos := by decide

/-- Fixed scheduling from rank 0 and bank 0 is documented, and has no branch. -/
theorem fixed_scheduling_not_numbered :
    ¬ ∀ p : QueueConfig, p.scheduleScheme = 0 ∨ p.scheduleScheme = 1 ∨ p.scheduleScheme = 2 → p.Numbered := by
  intro h
  have hnumbered := h fixedScheduling (.inl rfl)
  obtain ⟨id, hid, -⟩ := hnumbered.defined ⟨0, 0, 0⟩ ⟨by decide, by decide, by decide⟩
  have hlt := (getCommandQueueId_ok hid).2
  exact absurd hlt (by decide)

end QueueConfig

/-! ## The controller's numbers

   The controller's model counts in `Nat`. Below 2^64 queues its number of an address is the one that the code computes. -/

section Controller
variable {p : Params}

/-- The value of the parameter. -/
def ScheduleScheme.value : ScheduleScheme → Int
  | .fixed => 0
  | .rankFirst => 1
  | .bankFirst => 2

def Params.queueConfig (p : Params) (hr : p.ranks < 2 ^ 64) (hb : p.banks < 2 ^ 64) (hs : p.subArrayNum < 2 ^ 64) :
    QueueConfig where
  ranks := BitVec.ofNat 64 p.ranks
  banks := BitVec.ofNat 64 p.banks
  subArrayNum := BitVec.ofNat 64 p.subArrayNum
  queueModel := p.queueModel
  scheduleScheme := p.scheduleScheme.value
  ranks_pos := by
    rw [BitVec.toNat_ofNat, mod_eq_of_lt hr]
    exact p.ranks_pos
  banks_pos := by
    rw [BitVec.toNat_ofNat, mod_eq_of_lt hb]
    exact p.banks_pos
  subArrayNum_pos := by
    rw [BitVec.toNat_ofNat, mod_eq_of_lt hs]
    exact p.subArrayNum_pos

def Address.queueAddress (a : Address p) : QueueAddress where
  rank := BitVec.ofNat 64 a.rank
  bank := BitVec.ofNat 64 a.bank
  subarray := BitVec.ofNat 64 a.subarray

variable {hr : p.ranks < 2 ^ 64} {hb : p.banks < 2 ^ 64} {hs : p.subArrayNum < 2 ^ 64} {a : Address p}

theorem Params.queues_eq : (p.queueConfig hr hb hs).queues = p.commandQueueCount := by
  have hranks : (BitVec.ofNat 64 p.ranks).toNat = p.ranks := (BitVec.toNat_ofNat ..).trans (mod_eq_of_lt hr)
  have hbanks : (BitVec.ofNat 64 p.banks).toNat = p.banks := (BitVec.toNat_ofNat ..).trans (mod_eq_of_lt hb)
  have hsubs : (BitVec.ofNat 64 p.subArrayNum).toNat = p.subArrayNum :=
    (BitVec.toNat_ofNat ..).trans (mod_eq_of_lt hs)
  unfold QueueConfig.queues Params.commandQueueCount
  simp only [Params.queueConfig]
  cases p.queueModel with
  | perRank => exact hranks
  | perBank => exact congrArg₂ (· * ·) hranks hbanks
  | perSubArray => exact congrArg₂ (· * ·) (congrArg₂ (· * ·) hranks hbanks) hsubs

theorem Params.scheduled : (p.queueConfig hr hb hs).Scheduled := by
  intro hm
  have hok := p.scheme_ok hm
  show p.scheduleScheme.value = 1 ∨ p.scheduleScheme.value = 2
  cases hscheme : p.scheduleScheme with
  | fixed => exact absurd hscheme hok
  | rankFirst => exact .inl rfl
  | bankFirst => exact .inr rfl

def Address.digit (a : Address p) : QueueConfig.Digit → Nat
  | .rank => a.rank
  | .bank => a.bank
  | .subarray => a.subarray

theorem Params.radix_queueConfig : (p.queueConfig hr hb hs).radix = fun
      | .rank => p.ranks
      | .bank => p.banks
      | .subarray => p.subArrayNum := by
  funext k
  cases k with
  | rank => exact (BitVec.toNat_ofNat ..).trans (mod_eq_of_lt hr)
  | bank => exact (BitVec.toNat_ofNat ..).trans (mod_eq_of_lt hb)
  | subarray => exact (BitVec.toNat_ofNat ..).trans (mod_eq_of_lt hs)

theorem Address.digit_lt (k : QueueConfig.Digit) : a.digit k < (p.queueConfig hr hb hs).radix k := by
  rw [Params.radix_queueConfig]
  cases k with
  | rank => exact a.rank_lt
  | bank => exact a.bank_lt
  | subarray => exact a.subarray_lt

theorem pack_digit : pack (p.queueConfig hr hb hs).radix (p.queueConfig hr hb hs).queueDigits a.digit =
    getCommandQueueId a := by
  have hok := p.scheme_ok
  rw [Params.radix_queueConfig]
  unfold getCommandQueueId QueueConfig.queueDigits
  simp only [Params.queueConfig]
  cases hmodel : p.queueModel with
  | perRank => rfl
  | perBank =>
    show pack _ (if p.scheduleScheme.value = 1 then [.rank, .bank] else [.bank, .rank]) a.digit = _
    cases hscheme : p.scheduleScheme with
    | fixed => exact absurd hscheme (hok hmodel)
    | rankFirst =>
      show a.rank + p.ranks * (a.bank + p.banks * 0) = a.bank * p.ranks + a.rank
      ring
    | bankFirst =>
      show a.bank + p.banks * (a.rank + p.ranks * 0) = a.rank * p.banks + a.bank
      ring
  | perSubArray =>
    show a.subarray + p.subArrayNum * (a.bank + p.banks * (a.rank + p.ranks * 0)) = _
    ring

theorem queueId_queueAddress (hfit : p.commandQueueCount < 2 ^ 64) :
    ((p.queueConfig hr hb hs).queueId a.queueAddress).toNat = getCommandQueueId a := by
  have hdigits : ∀ k, a.queueAddress.digit k = a.digit k :=
    fun k => by cases k <;> exact QueueConfig.digit_ofDigits (p := p.queueConfig hr hb hs) Address.digit_lt _
  have ha : (p.queueConfig hr hb hs).InRange a.queueAddress :=
    QueueConfig.inRange_ofDigits Address.digit_lt
  calc
    ((p.queueConfig hr hb hs).queueId a.queueAddress).toNat
        = pack (p.queueConfig hr hb hs).radix (p.queueConfig hr hb hs).queueDigits a.queueAddress.digit :=
      QueueConfig.queueId_eq_pack Params.scheduled (by rw [Params.queues_eq]; exact hfit) ha
    _ = pack (p.queueConfig hr hb hs).radix (p.queueConfig hr hb hs).queueDigits a.digit := pack_congr fun k _ => hdigits k
    _ = getCommandQueueId a := pack_digit

end Controller

end Nvm
