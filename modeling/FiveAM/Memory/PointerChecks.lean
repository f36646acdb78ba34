/- GID: FiveAM/Memory/PointerChecks
   source: kernel/src/memory.rs, kernel/src/syscall.rs
   digest: The check of a user pointer: when it ends, and when what it accepts can be read. -/

import FiveAM.Process.SignalFrames
import FiveAM.Memory.FrameOwnership

set_option autoImplicit false
set_option relaxedAutoImplicit false

namespace FiveAM.Memory.PointerChecks

open FiveAM.Process.TaskTable (Word)
open FiveAM.Process.Machine (Canonical)
open FiveAM.Process.Pipes (CanonicalRange)
open FiveAM.Process.SignalFrames FiveAM.Process.FrameMemory
open FiveAM.Memory.Entries FiveAM.Memory.Frames FiveAM.Memory.PageTables
open FiveAM.Memory.FrameOwnership FiveAM.Lib.Runs

/-- The loop of `is_user_accessible` from a page on, for at most so many rounds. -/
def visitPages (s : Paging) (last : Word) : Nat → Word → Option Bool
  | 0, _ => none
  | rounds + 1, page =>
      if page < last then
        if pageAccessible s page 3 s.cr3 then
          visitPages s last rounds (page + BitVec.ofNat 64 pageSize)
        else some false
      else some true

/-- `is_user_accessible`, given so many rounds of its loop. -/
def isUserAccessibleWithin (s : Paging) (rounds : Nat) (address len : Word) : Option Bool :=
  if 2 ^ 64 ≤ address.toNat + len.toNat then some false
  else visitPages s (address + len) rounds (pageOf address)

section Rounds

variable {s : Paging} {last page : Word} {rounds rounds' : Nat}

/-- The loop gives one answer, however many rounds it is given. -/
theorem visitPages_same {answer answer' : Bool}
    (one : visitPages s last rounds page = some answer)
    (other : visitPages s last rounds' page = some answer') : answer = answer' := by
  induction rounds generalizing page rounds' with
  | zero => cases one
  | succ n ih =>
      cases rounds' with
      | zero => cases other
      | succ m =>
          unfold visitPages at one other
          split_ifs at one other
          · exact ih one other
          · cases one
            cases other
            rfl
          · cases one
            cases other
            rfl

theorem visitPages_pass (k : Nat)
    (passed : ∀ j, j < k → page + BitVec.ofNat 64 (j * pageSize) < last ∧
      pageAccessible s (page + BitVec.ofNat 64 (j * pageSize)) 3 s.cr3 = true) :
    visitPages s last (k + rounds) page =
      visitPages s last rounds (page + BitVec.ofNat 64 (k * pageSize)) := by
  induction k generalizing page with
  | zero => simp
  | succ k ih =>
      have shift : ∀ j, page + BitVec.ofNat 64 pageSize + BitVec.ofNat 64 (j * pageSize) =
          page + BitVec.ofNat 64 ((j + 1) * pageSize) := by
        intro j
        rw [BitVec.add_assoc, ← BitVec.ofNat_add, Nat.succ_mul, Nat.add_comm pageSize]
      obtain ⟨below, open'⟩ := passed 0 (Nat.succ_pos k)
      rw [Nat.zero_mul, BitVec.add_zero] at below open'
      rw [Nat.succ_add, visitPages, if_pos below, if_pos open', ih, shift]
      intro j low
      rw [shift]
      exact passed (j + 1) (Nat.succ_lt_succ low)

theorem visitPages_false (k : Nat)
    (below : ∀ j, j ≤ k → page + BitVec.ofNat 64 (j * pageSize) < last)
    (closed : pageAccessible s (page + BitVec.ofNat 64 (k * pageSize)) 3 s.cr3 = false) :
    ∃ rounds, visitPages s last rounds page = some false := by
  by_cases passed : ∀ j, j < k →
      pageAccessible s (page + BitVec.ofNat 64 (j * pageSize)) 3 s.cr3 = true
  · refine ⟨k + 1, ?_⟩
    rw [visitPages_pass k fun j low => ⟨below j (Nat.le_of_lt low), passed j low⟩, visitPages,
      if_pos (below k (Nat.le_refl k)), if_neg (Bool.eq_false_iff.mp closed)]
  · push Not at passed
    obtain ⟨j, ⟨low, first⟩, least⟩ := Nat.findX passed
    refine ⟨j + 1, ?_⟩
    rw [visitPages_pass j fun i before => ⟨below i (by omega), ?_⟩, visitPages,
      if_pos (below j (Nat.le_of_lt low)), if_neg first]
    by_contra shut
    exact least i before ⟨by omega, shut⟩

theorem visitPages_never
    (all : ∀ page : Word, page.toNat % pageSize = 0 → page < last ∧
      pageAccessible s page 3 s.cr3 = true) (aligned : page.toNat % pageSize = 0) :
    visitPages s last rounds page = none := by
  induction rounds generalizing page with
  | zero => rfl
  | succ n ih =>
      obtain ⟨below, open'⟩ := all page aligned
      rw [visitPages, if_pos below, if_pos open']
      apply ih
      rw [BitVec.toNat_add, BitVec.toNat_ofNat]
      unfold pageSize at aligned ⊢
      omega

end Rounds

section Reading

variable {s : Paging} {address len : Word}

/-- Ring 3 may read the pages that begin in this range, as far as the tables go. -/
def Readable (s : Paging) (first last : Nat) : Prop :=
  ∀ page : Word, page.toNat % pageSize = 0 → first ≤ page.toNat → page.toNat < last →
    ringThree s false page 3 s.cr3 = true

theorem ringThree_read (s : Paging) (page : Word) (level : Nat) (table : Word) :
    ringThree s false page level table = pageAccessible s page level table := by
  induction level generalizing table with
  | zero =>
      unfold ringThree pageAccessible
      simp
  | succ level ih =>
      unfold ringThree pageAccessible
      dsimp only
      rw [ih]
      cases has (s.words table (indexes page (level + 1))) present <;>
        cases has (s.words table (indexes page (level + 1))) user <;>
          cases has (s.words table (indexes page (level + 1))) huge <;> simp

theorem pageOf_toNat (address : Word) : (pageOf address).toNat = address.toNat / 4096 * 4096 :=
  toNat_and_not_low address 12

theorem ringThree_pageOf (s : Paging) (address : Word) :
    ringThree s false (pageOf address) 3 s.cr3 = ringThree s false address 3 s.cr3 := by
  apply ringThree_page
  rw [pageOf_toNat]
  omega

theorem page_steps {page first : Word} (aligned : page.toNat % pageSize = 0)
    (aligned' : first.toNat % pageSize = 0) : ∃ k, page = first + BitVec.ofNat 64 (k * pageSize) ∧
      (first.toNat ≤ page.toNat → k * pageSize = page.toNat - first.toNat) := by
  have bound := page.isLt
  have bound' := first.isLt
  unfold pageSize at *
  by_cases after : first.toNat ≤ page.toNat
  · refine ⟨(page.toNat - first.toNat) / 4096, ?_, fun _ => by omega⟩
    apply BitVec.eq_of_toNat_eq
    rw [BitVec.toNat_add, BitVec.toNat_ofNat]
    omega
  · refine ⟨(2 ^ 64 + page.toNat - first.toNat) / 4096, ?_, fun low => absurd low after⟩
    apply BitVec.eq_of_toNat_eq
    rw [BitVec.toNat_add, BitVec.toNat_ofNat]
    omega

/-- What the check does with a range that does not run past the last address. -/
inductive Checks (s : Paging) (address len : Word) : Prop where
  | refused (closed : ¬Readable s (pageOf address).toNat (address.toNat + len.toNat))
      (ends : ∃ rounds, isUserAccessibleWithin s rounds address len = some false)
  | accepted (open' : Readable s (pageOf address).toNat (address.toNat + len.toNat))
      (inside : address.toNat + len.toNat ≤ 2 ^ 64 - pageSize)
      (ends : ∃ rounds, isUserAccessibleWithin s rounds address len = some true)
  | wrapped (open' : Readable s (pageOf address).toNat (address.toNat + len.toNat))
      (outside : 2 ^ 64 - pageSize < address.toNat + len.toNat)
      (closed : ¬Readable s 0 (address.toNat + len.toNat))
      (ends : ∃ rounds, isUserAccessibleWithin s rounds address len = some false)
  | never (open' : Readable s (pageOf address).toNat (address.toNat + len.toNat))
      (outside : 2 ^ 64 - pageSize < address.toNat + len.toNat)
      (open'' : Readable s 0 (address.toNat + len.toNat))
      (endless : ∀ rounds, isUserAccessibleWithin s rounds address len = none)

theorem checks (s : Paging) {address len : Word} (fits : address.toNat + len.toNat < 2 ^ 64) :
    Checks s address len := by
  have within : ∀ rounds, isUserAccessibleWithin s rounds address len =
      visitPages s (address + len) rounds (pageOf address) := fun _ => if_neg (Nat.not_le.mpr fits)
  have sum : (address + len).toNat = address.toNat + len.toNat := by
    rw [BitVec.toNat_add, Nat.mod_eq_of_lt fits]
  have page := pageOf_toNat address
  have aligned : (pageOf address).toNat % pageSize = 0 := by
    unfold pageSize
    omega
  have stops : ∀ q : Word, q.toNat % pageSize = 0 → q.toNat < address.toNat + len.toNat →
      ((pageOf address).toNat ≤ q.toNat ∨ 2 ^ 64 - pageSize < address.toNat + len.toNat) →
      ringThree s false q 3 s.cr3 = false →
      ∃ rounds, isUserAccessibleWithin s rounds address len = some false := by
    intro q aligned' below order shut
    obtain ⟨k, rfl, steps⟩ := page_steps aligned' aligned
    obtain ⟨rounds, ends⟩ : ∃ rounds, visitPages s (address + len) rounds (pageOf address) =
        some false := by
      refine visitPages_false k (fun j upto => ?_) ?_
      · rw [BitVec.lt_def, sum, BitVec.toNat_add, BitVec.toNat_ofNat]
        unfold pageSize at *
        rcases order with after | wraps
        · have far := steps after
          omega
        · omega
      · rw [← ringThree_read]
        exact shut
    exact ⟨rounds, (within rounds).trans ends⟩
  by_cases open' : Readable s (pageOf address).toNat (address.toNat + len.toNat)
  swap
  · refine .refused open' ?_
    unfold Readable at open'
    push Not at open'
    obtain ⟨q, aligned', after, below, shut⟩ := open'
    exact stops q aligned' below (Or.inl after) (Bool.eq_false_iff.mpr shut)
  by_cases inside : address.toNat + len.toNat ≤ 2 ^ 64 - pageSize
  · refine .accepted open' inside ⟨pageCount address len + 1, ?_⟩
    have count : (pageOf address).toNat + pageCount address len * pageSize < 2 ^ 64 ∧
        address.toNat + len.toNat ≤ (pageOf address).toNat + pageCount address len * pageSize ∧
        ∀ j, j < pageCount address len →
          (pageOf address).toNat + j * pageSize < address.toNat + len.toNat := by
      unfold pageCount pageSize at *
      refine ⟨by omega, by omega, fun j low => by omega⟩
    obtain ⟨room, past, before⟩ := count
    have place : ∀ j, j ≤ pageCount address len →
        (pageOf address + BitVec.ofNat 64 (j * pageSize)).toNat =
          (pageOf address).toNat + j * pageSize := by
      intro j upto
      have less : j * pageSize ≤ pageCount address len * pageSize := Nat.mul_le_mul_right _ upto
      rw [BitVec.toNat_add, BitVec.toNat_ofNat]
      omega
    rw [within, visitPages_pass, visitPages, if_neg]
    · rw [BitVec.lt_def, sum, place _ (Nat.le_refl _)]
      omega
    · intro j low
      have here := place j (Nat.le_of_lt low)
      have below := before j low
      refine ⟨?_, ?_⟩
      · rw [BitVec.lt_def, sum, here]
        exact below
      · rw [← ringThree_read]
        apply open'
        · rw [here]
          unfold pageSize at *
          omega
        · omega
        · omega
  · have outside := Nat.not_le.mp inside
    by_cases open'' : Readable s 0 (address.toNat + len.toNat)
    · refine .never open' outside open'' fun rounds => (within rounds).trans ?_
      refine visitPages_never (fun q aligned' => ?_) aligned
      have bound := q.isLt
      have below : q.toNat < address.toNat + len.toNat := by
        unfold pageSize at *
        omega
      refine ⟨?_, ?_⟩
      · rw [BitVec.lt_def, sum]
        exact below
      · rw [← ringThree_read]
        exact open'' q aligned' (Nat.zero_le _) below
    · refine .wrapped open' outside open'' ?_
      unfold Readable at open''
      push Not at open''
      obtain ⟨q, aligned', -, below, shut⟩ := open''
      exact stops q aligned' below (Or.inr outside) (Bool.eq_false_iff.mpr shut)

theorem pages_readable (s : Paging) {address len : Word}
    (fits : address.toNat + len.toNat < 2 ^ 64) :
    ((List.range (pageCount address len)).all fun n =>
        pageAccessible s (pageOf address + BitVec.ofNat 64 (n * pageSize)) 3 s.cr3) = true ↔
      Readable s (pageOf address).toNat (address.toNat + len.toNat) := by
  have page := pageOf_toNat address
  have aligned : (pageOf address).toNat % pageSize = 0 := by
    unfold pageSize
    omega
  have before : ∀ j, j < pageCount address len ↔
      (pageOf address).toNat + j * pageSize < address.toNat + len.toNat := by
    intro j
    unfold pageCount pageSize
    omega
  rw [List.all_eq_true]
  constructor
  · intro all q aligned' after below
    obtain ⟨k, rfl, steps⟩ := page_steps aligned' aligned
    have far := steps after
    rw [ringThree_read]
    apply all
    rw [List.mem_range, before]
    omega
  · intro open' n listed
    have below := (before n).mp (List.mem_range.mp listed)
    have place : (pageOf address + BitVec.ofNat 64 (n * pageSize)).toNat =
        (pageOf address).toNat + n * pageSize := by
      rw [BitVec.toNat_add, BitVec.toNat_ofNat]
      omega
    rw [← ringThree_read]
    apply open'
    · rw [place]
      unfold pageSize at *
      omega
    · omega
    · omega

theorem isUserAccessibleWithin_same {rounds rounds' : Nat} {answer answer' : Bool}
    (one : isUserAccessibleWithin s rounds address len = some answer)
    (other : isUserAccessibleWithin s rounds' address len = some answer') : answer = answer' := by
  unfold isUserAccessibleWithin at one other
  split_ifs at one other
  · cases one
    cases other
    rfl
  · exact visitPages_same one other

theorem isUserAccessible_iff (s : Paging) (address len : Word) (answer : Bool) :
    isUserAccessible s address len = some answer ↔
      ∃ rounds, isUserAccessibleWithin s rounds address len = some answer := by
  have settled : ∀ {given}, (∃ rounds, isUserAccessibleWithin s rounds address len = some given) →
      ((some given : Option Bool) = some answer ↔
        ∃ rounds, isUserAccessibleWithin s rounds address len = some answer) := by
    rintro given ⟨rounds, ends⟩
    constructor
    · intro same
      exact ⟨rounds, ends.trans same⟩
    · rintro ⟨rounds', ends'⟩
      rw [isUserAccessibleWithin_same ends ends']
  unfold isUserAccessible
  by_cases fits : address.toNat + len.toNat < 2 ^ 64
  swap
  · rw [if_pos (Nat.not_lt.mp fits)]
    exact settled ⟨0, if_pos (Nat.not_lt.mp fits)⟩
  have pages := pages_readable s fits
  have sum : (address + len).toNat = address.toNat + len.toNat := by
    rw [BitVec.toNat_add, Nat.mod_eq_of_lt fits]
  have zero : (0 : Word).toNat = 0 := rfl
  have low : (0 : Word).toNat + (address + len).toNat < 2 ^ 64 := by
    rw [zero, sum, Nat.zero_add]
    exact fits
  have below := pages_readable s low
  have first : ∀ n, pageOf 0 + BitVec.ofNat 64 (n * pageSize) = BitVec.ofNat 64 (n * pageSize) :=
    fun _ => BitVec.zero_add _
  simp only [first] at below
  rw [show pageOf 0 = (0 : Word) from by decide, sum, zero, Nat.zero_add] at below
  have page := pageOf_toNat address
  have reaches : (pageOf address).toNat + pageCount address len * pageSize < 2 ^ 64 ↔
      address.toNat + len.toNat ≤ 2 ^ 64 - pageSize := by
    unfold pageCount pageSize
    omega
  rw [if_neg (Nat.not_le.mpr fits)]
  cases checks s fits with
  | refused closed ends =>
      rw [if_pos (Bool.eq_false_iff.mpr fun all => closed (pages.mp all))]
      exact settled ends
  | accepted open' inside ends =>
      rw [if_neg (by rw [pages.mpr open']; decide), if_pos (reaches.mpr inside)]
      exact settled ends
  | wrapped open' outside closed ends =>
      rw [if_neg (by rw [pages.mpr open']; decide), if_neg (by rw [reaches]; omega),
        if_neg fun all => closed (below.mp all)]
      exact settled ends
  | never open' outside open'' endless =>
      rw [if_neg (by rw [pages.mpr open']; decide), if_neg (by rw [reaches]; omega),
        if_pos (below.mpr open'')]
      refine iff_of_false (fun none' => nomatch none') ?_
      rintro ⟨rounds, ends⟩
      rw [endless rounds] at ends
      cases ends

end Reading

section Soundness

variable {s : Paging} {address len : Word}

/-- What the check of a user pointer is for: it ends, and what it accepts ring 3 may read. -/
structure Sound (s : Paging) (address len : Word) : Prop where
  ends : ∃ rounds, (isUserAccessibleWithin s rounds address len).isSome = true
  reads : ∀ rounds, isUserAccessibleWithin s rounds address len = some true →
    ∀ d, d < len.toNat → UserMay s false (address + BitVec.ofNat 64 d)

/-- The range is canonical, or some page the loop visits is not ring 3's: of the range, or,
where the range reaches the last page there is, of everything below its end. -/
structure Bounded (s : Paging) (address len : Word) : Prop where
  canonical : Readable s (pageOf address).toNat (address.toNat + len.toNat) →
    address.toNat + len.toNat ≤ 2 ^ 64 - pageSize →
      ∀ d, d < len.toNat → Canonical (address + BitVec.ofNat 64 d)
  last : Readable s (pageOf address).toNat (address.toNat + len.toNat) →
    2 ^ 64 - pageSize < address.toNat + len.toNat → ¬Readable s 0 (address.toNat + len.toNat)

theorem byte_readable (fits : address.toNat + len.toNat < 2 ^ 64)
    (open' : Readable s (pageOf address).toNat (address.toNat + len.toNat)) {d : Nat}
    (inside : d < len.toNat) : ringThree s false (address + BitVec.ofNat 64 d) 3 s.cr3 = true := by
  have place : (address + BitVec.ofNat 64 d).toNat = address.toNat + d := by
    rw [BitVec.toNat_add, BitVec.toNat_ofNat]
    omega
  have page := pageOf_toNat address
  have page' := pageOf_toNat (address + BitVec.ofNat 64 d)
  rw [← ringThree_pageOf]
  apply open'
  · unfold pageSize
    omega
  · omega
  · omega

/-- The check of a user pointer does what it is for exactly on the ranges that are refused
for their length, or bounded. -/
theorem pointer_check_sound_iff (s : Paging) (address len : Word) :
    Sound s address len ↔ (address.toNat + len.toNat < 2 ^ 64 → Bounded s address len) := by
  by_cases fits : address.toNat + len.toNat < 2 ^ 64
  swap
  · have refused : ∀ rounds, isUserAccessibleWithin s rounds address len = some false :=
      fun _ => if_pos (Nat.not_lt.mp fits)
    refine iff_of_true ⟨⟨0, ?_⟩, fun rounds accepted => ?_⟩ fun low => absurd low fits
    · rw [refused]
      rfl
    · rw [refused] at accepted
      cases accepted
  rw [imp_iff_right fits]
  cases checks s fits with
  | refused closed ends =>
      obtain ⟨rounds, ends⟩ := ends
      refine iff_of_true ⟨⟨rounds, by rw [ends]; rfl⟩, fun rounds' accepted => ?_⟩
        ⟨fun open' => absurd open' closed, fun open' => absurd open' closed⟩
      exact absurd (isUserAccessibleWithin_same ends accepted) (by decide)
  | accepted open' inside ends =>
      obtain ⟨rounds, ends⟩ := ends
      constructor
      · intro sound
        refine ⟨fun _ _ d low => (sound.reads rounds ends d low).1, fun _ outside => ?_⟩
        exact absurd inside (Nat.not_le.mpr outside)
      · intro bounded
        refine ⟨⟨rounds, by rw [ends]; rfl⟩, fun _ _ d low => ⟨?_, byte_readable fits open' low⟩⟩
        exact bounded.canonical open' inside d low
  | wrapped open' outside closed ends =>
      obtain ⟨rounds, ends⟩ := ends
      refine iff_of_true ⟨⟨rounds, by rw [ends]; rfl⟩, fun rounds' accepted => ?_⟩
        ⟨fun _ inside => absurd inside (Nat.not_le.mpr outside), fun _ _ => closed⟩
      exact absurd (isUserAccessibleWithin_same ends accepted) (by decide)
  | never open' outside open'' endless =>
      refine iff_of_false (fun sound => ?_) fun bounded => bounded.last open' outside open''
      obtain ⟨rounds, some'⟩ := sound.ends
      rw [endless rounds] at some'
      cases some'

/-- A space with one page, active: an address sixteen bits of which are not looked at is
accepted, and no program may read there. -/
theorem pointer_check_sound_not : ∃ k,
    Reached step (fun k => k = booted [0x104000, 0x103000, 0x102000, 0x101000, 0x100000])
        (fun _ _ => True) k ∧
      ¬Sound k.paging 0x1000000400000 8 := by
  have facts : ((runAll step (booted [0x104000, 0x103000, 0x102000, 0x101000, 0x100000])
      [.create, .map 0x100000 0x400000 (user ||| writable), .activate 0x100000]).any fun k =>
        decide (isUserAccessibleWithin k.paging 2 0x1000000400000 8 = some true)) = true := by
    decide +kernel
  obtain ⟨k, run, facts⟩ := Reached.freely
    (fun k => k = booted [0x104000, 0x103000, 0x102000, 0x101000, 0x100000]) rfl facts
  refine ⟨k, run, fun sound => ?_⟩
  have read := sound.reads 2 (of_decide_eq_true facts) 0 (by decide)
  exact absurd read.1 (by decide)

end Soundness

section Accesses

variable {s : Paging} {address len : Word}

/-- No slot of the active root but the first is open to ring 3: the others are the kernel's. -/
def KernelShut (s : Paging) : Prop := ∀ i : Index, i ≠ 0 → has (s.words s.cr3 i) user = false

private theorem readable_of_accepted (accepted : isUserAccessible s address len = some true) :
    address.toNat + len.toNat < 2 ^ 64 ∧
      Readable s (pageOf address).toNat (address.toNat + len.toNat) := by
  obtain ⟨rounds, accepted⟩ := (isUserAccessible_iff s address len true).mp accepted
  by_cases fits : address.toNat + len.toNat < 2 ^ 64
  · refine ⟨fits, ?_⟩
    cases checks s fits with
    | refused closed ends =>
        obtain ⟨rounds', ends⟩ := ends
        exact absurd (isUserAccessibleWithin_same ends accepted) (by decide)
    | accepted open' inside ends => exact open'
    | wrapped open' outside closed ends => exact open'
    | never open' outside open'' endless => exact open'
  · unfold isUserAccessibleWithin at accepted
    rw [if_pos (Nat.not_lt.mp fits)] at accepted
    cases accepted

private theorem indexes_kernel (canonical : Canonical address)
    (high : Process.Machine.userSpaceEnd ≤ address.toNat) : indexes address 3 ≠ 0 := by
  intro same
  have slot := congrArg Fin.val same
  simp only [indexes, BitVec.toNat_ushiftRight, Nat.shiftRight_eq_div_pow] at slot
  unfold Process.Machine.userSpaceEnd at high
  have bound := address.isLt
  change address.toNat / 2 ^ 39 % 512 = 0 at slot
  rcases canonical with below | above <;> omega

theorem accepted_low (shut : KernelShut s) (some' : 0 < len.toNat)
    (canonical : CanonicalRange address len)
    (accepted : isUserAccessible s address len = some true) :
    address.toNat + len.toNat ≤ Process.Machine.userSpaceEnd := by
  obtain ⟨fits, open'⟩ := readable_of_accepted accepted
  have last : len.toNat - 1 < len.toNat := Nat.sub_one_lt_of_lt some'
  have place : (address + BitVec.ofNat 64 (len.toNat - 1)).toNat =
      address.toNat + (len.toNat - 1) := by
    rw [BitVec.toNat_add, BitVec.toNat_ofNat]
    omega
  have readable := byte_readable fits open' last
  by_contra beyond
  have kernel := indexes_kernel (canonical _ last) (by omega)
  unfold ringThree at readable
  simp only [shut _ kernel, Bool.and_false, Bool.false_and] at readable
  cases readable

/-- The accesses of a system call in a space: those the check accepts and the processor
carries out. -/
def pointerAccess (s : Paging) (shut : KernelShut s) : Process.Pipes.Access where
  allows address len :=
    decide (isUserAccessible s address len = some true ∧ CanonicalRange address len)
  touched _ _ allowed := (of_decide_eq_true allowed).2
  low _ _ some' canonical allowed :=
    accepted_low shut some' canonical (of_decide_eq_true allowed).1

end Accesses

end FiveAM.Memory.PointerChecks
