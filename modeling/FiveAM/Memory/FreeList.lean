/- GID: FiveAM/Memory/FreeList
   source: kernel/src/memory.rs
   digest: The free list from the memory map on: what `init` puts on it, and what handing frames out keeps. -/

import FiveAM.Memory.Boot
import FiveAM.Process.FrameMemory
import FiveAM.Lib.Runs

set_option autoImplicit false
set_option relaxedAutoImplicit false

namespace FiveAM.Memory.FreeList

open FiveAM.Process.TaskTable (Word)
open FiveAM.Memory.Ownership (Words Chain)
open FiveAM.Memory.Entries FiveAM.Memory.Frames FiveAM.Lib.Runs

section Lists

variable {m : Words} {head f : Word} {chain chain' : List Word} {s : Paging}

def OnFreeList (s : Paging) (frame : Word) : Prop :=
  ∃ chain, Chain s.words s.head chain ∧ frame ∈ chain

theorem chain_unique (first : Chain m head chain) (second : Chain m head chain') :
    chain = chain' := by
  induction chain generalizing head chain' with
  | nil =>
      cases chain' with
      | nil => rfl
      | cons f rest => exact absurd (second.1.symm.trans first) second.2.1
  | cons f rest ih =>
      obtain ⟨rfl, nonzero, later⟩ := first
      cases chain' with
      | nil => exact absurd second nonzero
      | cons g rest' =>
          obtain ⟨rfl, -, later'⟩ := second
          rw [ih later later']

theorem chain_deallocate (linked : Chain s.words s.head chain) (nonzero : f ≠ 0)
    (apart : f ∉ chain) :
    Chain (s.deallocate f).words (s.deallocate f).head (f :: chain) := by
  refine ⟨rfl, nonzero, ?_⟩
  have next : (s.deallocate f).words f 0 = s.head := by
    simp [Paging.deallocate, Paging.write]
  rw [next]
  refine linked.congr fun g inside => Function.update_of_ne ?_ _ _
  rintro rfl
  exact apart inside

theorem deallocate_words {g : Word} {i : Index} (other : ¬(g = f ∧ i = 0)) :
    (s.deallocate f).words g i = s.words g i := by
  change Function.update s.words f (Function.update (s.words f) 0 s.head) g i = s.words g i
  by_cases same : g = f
  · subst same
    rw [Function.update_self, Function.update_of_ne fun first => other ⟨rfl, first⟩]
  · rw [Function.update_of_ne same]

end Lists

section Init

/-- `MemoryRegionKind` of the boot protocol. -/
inductive MemoryRegionKind
  | usable
  | bootloader
  | unknownUefi (tag : Nat)
  | unknownBios (tag : Nat)
  deriving DecidableEq

/-- A region of the memory map, up to its exclusive `end`. -/
structure MemoryRegion where
  start : Word
  stop : Word
  kind : MemoryRegionKind

/-- Memory and the allocator's head and count of free frames, with the `total` that only
`init` counts. -/
structure Counted where
  paging : Paging
  total : Nat

/-- The loop of `init` over the frames of a region, for at most so many rounds. -/
def freeFrames : Nat → Word → Word → Counted → Option Counted
  | 0, _, _, _ => none
  | rounds + 1, frame, stop, c =>
      if frame + 4096 ≤ stop then
        freeFrames rounds (frame + 4096) stop
          (if 0x100000 ≤ frame then ⟨c.paging.deallocate frame, c.total + 1⟩ else c)
      else some c

/-- Build the free list from the regions the firmware called usable. -/
def init (rounds : Nat) : List MemoryRegion → Counted → Option Counted
  | [], c => some c
  | region :: rest, c =>
      if region.kind ≠ .usable then init rounds rest c
      else
        let start := (region.start + 4096 - 1) &&& ~~~(4096 - 1)
        let stop := region.stop &&& ~~~(4096 - 1)
        match freeFrames rounds start stop c with
        | none => none
        | some c => init rounds rest c

/-- A whole frame of a usable region, past the first megabyte. -/
def Usable (regions : List MemoryRegion) (f : Word) : Prop :=
  ∃ r ∈ regions, r.kind = .usable ∧ f.toNat % 4096 = 0 ∧ 2 ^ 20 ≤ f.toNat ∧
    r.start.toNat ≤ f.toNat ∧ f.toNat + 4096 ≤ r.stop.toNat

/-- The frames of `n` pages from an address on, without those of the first megabyte. -/
def framesFrom : Nat → Nat → List Word
  | 0, _ => []
  | n + 1, a => (if 2 ^ 20 ≤ a then [BitVec.ofNat 64 a] else []) ++ framesFrom n (a + 4096)

/-- The frames `init` takes from a region. -/
def framesOf (r : MemoryRegion) : List Word :=
  if r.kind = .usable then
    framesFrom ((r.stop.toNat / 4096 * 4096 - (r.start.toNat + 4095) / 4096 * 4096) / 4096)
      ((r.start.toNat + 4095) / 4096 * 4096)
  else []

theorem mem_framesFrom {n a : Nat} {f : Word} (low : a + n * 4096 ≤ 2 ^ 64) :
    f ∈ framesFrom n a ↔ 2 ^ 20 ≤ f.toNat ∧ ∃ k, k < n ∧ f.toNat = a + k * 4096 := by
  induction n generalizing a with
  | zero => simp [framesFrom]
  | succ n ih =>
      have here : f ∈ (if 2 ^ 20 ≤ a then [BitVec.ofNat 64 a] else []) ↔
          2 ^ 20 ≤ f.toNat ∧ f.toNat = a := by
        have word : f = BitVec.ofNat 64 a ↔ f.toNat = a := by
          rw [← BitVec.toNat_inj, BitVec.toNat_ofNat, Nat.mod_eq_of_lt (by omega)]
        split_ifs with high
        · rw [List.mem_singleton, word]
          omega
        · simp only [List.not_mem_nil, false_iff]
          omega
      rw [framesFrom, List.mem_append, here, ih (by omega)]
      refine ⟨?_, ?_⟩
      · rintro (⟨high, same⟩ | ⟨high, k, below, same⟩)
        · exact ⟨high, 0, Nat.succ_pos n, by omega⟩
        · exact ⟨high, k + 1, Nat.succ_lt_succ below, by omega⟩
      · rintro ⟨high, k, below, same⟩
        cases k with
        | zero => exact .inl ⟨high, by omega⟩
        | succ k => exact .inr ⟨high, k, Nat.lt_of_succ_lt_succ below, by omega⟩

theorem nodup_framesFrom {n a : Nat} (low : a + n * 4096 ≤ 2 ^ 64) : (framesFrom n a).Nodup := by
  induction n generalizing a with
  | zero => exact List.nodup_nil
  | succ n ih =>
      rw [framesFrom]
      split_ifs with high
      · refine List.nodup_cons.mpr ⟨fun inside => ?_, ih (by omega)⟩
        obtain ⟨-, k, -, same⟩ := (mem_framesFrom (by omega)).mp inside
        rw [BitVec.toNat_ofNat, Nat.mod_eq_of_lt (by omega)] at same
        omega
      · exact ih (by omega)

section Regions

variable {r : MemoryRegion} {f : Word}

/-- A region that lies below the addresses an entry can name. -/
def Below (r : MemoryRegion) : Prop := r.start.toNat ≤ 2 ^ 52 ∧ r.stop.toNat ≤ 2 ^ 52

theorem mem_framesOf (below : Below r) : f ∈ framesOf r ↔ r.kind = .usable ∧
    f.toNat % 4096 = 0 ∧ 2 ^ 20 ≤ f.toNat ∧ r.start.toNat ≤ f.toNat ∧
      f.toNat + 4096 ≤ r.stop.toNat := by
  obtain ⟨first, last⟩ := below
  rw [framesOf]
  split_ifs with kind
  · rw [mem_framesFrom (by omega)]
    refine ⟨?_, ?_⟩
    · rintro ⟨high, k, inside, same⟩
      exact ⟨kind, by omega, high, by omega, by omega⟩
    · rintro ⟨-, aligned, high, start, stop⟩
      exact ⟨high, (f.toNat - (r.start.toNat + 4095) / 4096 * 4096) / 4096, by omega, by omega⟩
  · simp [kind]

theorem nodup_framesOf (below : Below r) : (framesOf r).Nodup := by
  obtain ⟨first, last⟩ := below
  rw [framesOf]
  split_ifs
  · exact nodup_framesFrom (by omega)
  · exact List.nodup_nil

theorem freeFrames_eq {rounds n : Nat} {frame stop : Word} (c : Counted)
    (pages : (stop.toNat - frame.toNat) / 4096 = n) (low : frame.toNat < 2 ^ 63)
    (high : stop.toNat < 2 ^ 63) (enough : n < rounds) :
    freeFrames rounds frame stop c = some ⟨Boot.init c.paging (framesFrom n frame.toNat),
      c.total + (framesFrom n frame.toNat).length⟩ := by
  induction n generalizing rounds frame c with
  | zero =>
      obtain ⟨rounds, rfl⟩ : ∃ k, rounds = k + 1 := ⟨rounds - 1, by omega⟩
      have past : ¬frame + 4096 ≤ stop := by
        rw [BitVec.le_def, BitVec.toNat_add, show (4096 : Word).toNat = 4096 from rfl]
        omega
      rw [freeFrames, if_neg past]
      rfl
  | succ n ih =>
      obtain ⟨rounds, rfl⟩ : ∃ k, rounds = k + 1 := ⟨rounds - 1, by omega⟩
      have next : (frame + 4096).toNat = frame.toNat + 4096 := by
        rw [BitVec.toNat_add, show (4096 : Word).toNat = 4096 from rfl]
        omega
      have inside : frame + 4096 ≤ stop := by
        rw [BitVec.le_def, next]
        omega
      have kept : (0x100000 : Word) ≤ frame ↔ 2 ^ 20 ≤ frame.toNat := BitVec.le_def
      rw [freeFrames, if_pos inside, ih _ (by omega) (by omega) (by omega), next, framesFrom]
      by_cases high : 2 ^ 20 ≤ frame.toNat
      · rw [if_pos (kept.mpr high), if_pos high, BitVec.ofNat_toNat, BitVec.setWidth_eq]
        refine congrArg some (congrArg (Counted.mk _) ?_)
        rw [List.length_append, List.length_singleton, Nat.add_assoc]
      · rw [if_neg fun large => high (kept.mp large), if_neg high]
        rfl

end Regions

variable {regions : List MemoryRegion}

theorem init_eq {rounds : Nat} (enough : 2 ^ 40 < rounds) (below : ∀ r ∈ regions, Below r)
    (c : Counted) :
    init rounds regions c = some ⟨Boot.init c.paging (regions.flatMap framesOf),
      c.total + (regions.flatMap framesOf).length⟩ := by
  induction regions generalizing c with
  | nil => rfl
  | cons r rest ih =>
      obtain ⟨first, last⟩ := below r List.mem_cons_self
      have later := ih fun r inside => below r (List.mem_cons_of_mem _ inside)
      rw [init, List.flatMap_cons, List.length_append]
      by_cases kind : r.kind = .usable
      · have start : ((r.start + 4096 - 1) &&& ~~~(4096 - 1)).toNat =
            (r.start.toNat + 4095) / 4096 * 4096 := by
          have sum : (r.start + 4096 - 1).toNat = r.start.toNat + 4095 := by
            rw [BitVec.toNat_sub, BitVec.toNat_add, show (4096 : Word).toNat = 4096 from rfl,
              show (1 : Word).toNat = 1 from rfl]
            omega
          rw [← sum]
          exact FiveAM.Process.FrameMemory.toNat_and_not_low _ 12
        have stop : (r.stop &&& ~~~(4096 - 1)).toNat = r.stop.toNat / 4096 * 4096 :=
          FiveAM.Process.FrameMemory.toNat_and_not_low _ 12
        rw [if_neg (by simp [kind])]
        dsimp only
        rw [freeFrames_eq c rfl (by omega) (by omega) (by omega)]
        dsimp only
        rw [later, start, stop, framesOf, if_pos kind, Boot.init, Boot.init, Boot.init,
          List.foldl_append, Nat.add_assoc]
      · rw [if_pos kind, later, framesOf, if_neg kind]
        simp

theorem nodup_frames (below : ∀ r ∈ regions, Below r)
    (apart : regions.Pairwise fun r r' => ∀ x : Nat, ¬((r.start.toNat ≤ x ∧ x < r.stop.toNat) ∧
      r'.start.toNat ≤ x ∧ x < r'.stop.toNat)) :
    (regions.flatMap framesOf).Nodup := by
  refine List.nodup_flatMap.mpr ⟨fun r inside => nodup_framesOf (below r inside), ?_⟩
  refine apart.imp_of_mem fun {r r'} inside inside' disjoint => ?_
  refine List.disjoint_left.mpr fun f here there => disjoint f.toNat ?_
  obtain ⟨-, -, -, first, last⟩ := (mem_framesOf (below r inside)).mp here
  obtain ⟨-, -, -, first', last'⟩ := (mem_framesOf (below r' inside')).mp there
  omega

theorem mem_frames (below : ∀ r ∈ regions, Below r) {f : Word} :
    f ∈ regions.flatMap framesOf ↔ Usable regions f := by
  rw [List.mem_flatMap]
  exact ⟨fun ⟨r, inside, here⟩ => ⟨r, inside, (mem_framesOf (below r inside)).mp here⟩,
    fun ⟨r, inside, here⟩ => ⟨r, inside, (mem_framesOf (below r inside)).mpr here⟩⟩

end Init

section Runs

/-- Memory with the frames that have been handed out and not given back. -/
structure Holding where
  paging : Paging
  held : List Word

/-- Taking a frame, giving one back, and a write to one by whoever holds it. -/
inductive Event
  | allocate
  | deallocate (frame : Word)
  | store (frame : Word) (i : Index) (w : Word)

/-- Only frames that are held are given back or written. -/
def step (m : Holding) : Event → Option Holding
  | .allocate =>
      match m.paging.allocate with
      | (none, s) => some ⟨s, m.held⟩
      | (some frame, s) => some ⟨s, frame :: m.held⟩
  | .deallocate frame =>
      if frame ∈ m.held then some ⟨m.paging.deallocate frame, m.held.erase frame⟩ else none
  | .store frame i w =>
      if frame ∈ m.held then some ⟨m.paging.write frame i w, m.held⟩ else none

/-- The free list, and the frames it shares out with those in use. -/
structure Shares (m : Holding) (frames chain : List Word) : Prop where
  linked : Chain m.paging.words m.paging.head chain
  count : m.paging.free = chain.length
  shared : (chain ++ m.held).Perm frames

variable {m m' : Holding} {s : Paging} {frames chain : List Word} {e : Event} {f : Word}

theorem Shares.nodup (shares : Shares m frames chain) (once : frames.Nodup) :
    (chain ++ m.held).Nodup := shares.shared.nodup_iff.mpr once

theorem Shares.free_of_held (shares : Shares m frames chain) (once : frames.Nodup)
    (held : f ∈ m.held) : f ∉ chain := fun free =>
  (List.nodup_append.mp (shares.nodup once)).2.2 f free f held rfl

theorem Shares.allocate_none (shares : Shares m frames chain) :
    m.paging.allocate.1 = none ↔ chain = [] := by
  have linked := shares.linked
  rw [Paging.allocate]
  cases chain with
  | nil =>
      rw [if_pos (show m.paging.head = 0 from linked)]
      simp
  | cons f rest =>
      obtain ⟨rfl, nonzero, -⟩ := linked
      rw [if_neg nonzero]
      simp

theorem Shares.allocate (shares : Shares m frames (f :: chain)) :
    Shares ⟨{ m.paging with head := m.paging.words f 0, free := m.paging.free - 1 }, f :: m.held⟩
      frames chain where
  linked := shares.linked.2.2
  count := by
    have count := shares.count
    rw [List.length_cons] at count
    change m.paging.free - 1 = _
    omega
  shared := List.perm_middle.trans shares.shared

theorem Shares.deallocate (shares : Shares m frames chain) (once : frames.Nodup)
    (nonzero : ∀ f ∈ frames, f ≠ 0) (held : f ∈ m.held) :
    Shares ⟨m.paging.deallocate f, m.held.erase f⟩ frames (f :: chain) where
  linked := by
    have known : f ∈ frames := shares.shared.mem_iff.mp (List.mem_append_right _ held)
    exact chain_deallocate shares.linked (nonzero f known) (shares.free_of_held once held)
  count := congrArg (· + 1) shares.count
  shared := (List.perm_middle.symm.trans (((List.perm_cons_erase held).symm).append_left chain)).trans
    shares.shared

theorem Shares.store (shares : Shares m frames chain) (once : frames.Nodup) (held : f ∈ m.held)
    (i : Index) (w : Word) : Shares ⟨m.paging.write f i w, m.held⟩ frames chain where
  linked := shares.linked.congr fun g free => Function.update_of_ne
    (fun same : g = f => shares.free_of_held once held (same ▸ free)) _ _
  count := shares.count
  shared := shares.shared

theorem Shares.step (shares : Shares m frames chain) (once : frames.Nodup)
    (nonzero : ∀ f ∈ frames, f ≠ 0) (taken : step m e = some m') :
    ∃ chain', Shares m' frames chain' := by
  cases e with
  | allocate =>
      rw [FreeList.step, Paging.allocate] at taken
      cases chain with
      | nil =>
          rw [if_pos (show m.paging.head = 0 from shares.linked)] at taken
          obtain rfl := Option.some.inj taken
          exact ⟨[], shares⟩
      | cons f rest =>
          obtain ⟨head, nonzero, -⟩ := shares.linked
          rw [head, if_neg nonzero] at taken
          obtain rfl := Option.some.inj taken
          exact ⟨rest, shares.allocate⟩
  | deallocate frame =>
      rw [FreeList.step] at taken
      split_ifs at taken with held
      obtain rfl := Option.some.inj taken
      exact ⟨_, shares.deallocate once nonzero held⟩
  | store frame i w =>
      rw [FreeList.step] at taken
      split_ifs at taken with held
      obtain rfl := Option.some.inj taken
      exact ⟨chain, shares.store once held i w⟩

theorem Shares.runAll (shares : Shares m frames chain) (once : frames.Nodup)
    (nonzero : ∀ f ∈ frames, f ≠ 0) {events : List Event}
    (taken : runAll FreeList.step m events = some m') : ∃ chain', Shares m' frames chain' := by
  induction events generalizing m chain with
  | nil =>
      obtain rfl := Option.some.inj taken
      exact ⟨chain, shares⟩
  | cons e rest ih =>
      obtain ⟨next, here, later⟩ := Option.bind_eq_some_iff.mp taken
      obtain ⟨chain', shares'⟩ := shares.step once nonzero here
      exact ih shares' later

theorem Shares.quiet (shares : Shares m frames chain) (once : frames.Nodup)
    (nonzero : ∀ f ∈ frames, f ≠ 0) (taken : FreeList.step m e = some m')
    (own : ∀ f i w, e ≠ .store f i w) {i : Index}
    (changed : m'.paging.words f i ≠ m.paging.words f i) : i = 0 ∧ OnFreeList m'.paging f := by
  cases e with
  | allocate =>
      refine absurd ?_ changed
      rw [FreeList.step, Paging.allocate] at taken
      split_ifs at taken with empty
      · obtain rfl := Option.some.inj taken
        rfl
      · obtain rfl := Option.some.inj taken
        rfl
  | deallocate frame =>
      rw [FreeList.step] at taken
      split_ifs at taken with held
      obtain rfl := Option.some.inj taken
      by_cases here : f = frame ∧ i = 0
      · obtain ⟨rfl, rfl⟩ := here
        exact ⟨rfl, f :: chain, (shares.deallocate once nonzero held).linked, List.mem_cons_self⟩
      · exact absurd (deallocate_words here) changed
  | store frame i w => exact absurd rfl (own frame i w)

theorem shares_init (empty : s.head = 0) (none : s.free = 0) (once : frames.Nodup)
    (nonzero : ∀ f ∈ frames, f ≠ 0) :
    Shares ⟨Boot.init s frames, []⟩ frames frames.reverse ∧
      ∀ f i, ¬(f ∈ frames ∧ i = 0) → (Boot.init s frames).words f i = s.words f i := by
  suffices given : ∀ frames chain (s : Paging), Chain s.words s.head chain → s.free = chain.length →
      (frames ++ chain).Nodup → (∀ f ∈ frames, f ≠ 0) →
      Chain (Boot.init s frames).words (Boot.init s frames).head (frames.reverse ++ chain) ∧
        (Boot.init s frames).free = (frames.reverse ++ chain).length ∧
        ∀ f i, ¬(f ∈ frames ∧ i = 0) → (Boot.init s frames).words f i = s.words f i by
    obtain ⟨linked, count, kept⟩ := given frames [] s empty none (by rwa [List.append_nil]) nonzero
    rw [List.append_nil] at linked count
    exact ⟨⟨linked, count, by rw [List.append_nil]; exact List.reverse_perm frames⟩, kept⟩
  intro frames
  induction frames with
  | nil => exact fun chain s linked count _ _ => ⟨linked, count, fun f i _ => rfl⟩
  | cons g rest ih =>
      intro chain s linked count once nonzero
      rw [List.cons_append, List.nodup_cons] at once
      have apart : g ∉ chain := fun inside => once.1 (List.mem_append_right _ inside)
      have first := chain_deallocate linked (nonzero g List.mem_cons_self) apart
      obtain ⟨linked', count', kept⟩ := ih (g :: chain) (s.deallocate g) first
        (congrArg (· + 1) count) (List.perm_middle.symm.nodup_iff.mp (List.nodup_cons.mpr once))
        fun f inside => nonzero f (List.mem_cons_of_mem _ inside)
      rw [List.reverse_cons, List.append_assoc]
      refine ⟨linked', count', fun f i off => ?_⟩
      refine (kept f i fun both => off ⟨List.mem_cons_of_mem _ both.1, both.2⟩).trans ?_
      exact deallocate_words fun here => off ⟨here.1 ▸ List.mem_cons_self, here.2⟩

end Runs

section Law

variable {regions : List MemoryRegion} {s : Paging}

/-- What the free list is between two operations, and what the next one may do. -/
structure Orderly (m : Holding) (regions : List MemoryRegion) : Prop where
  /-- It ends, has each frame once that nobody holds, and is counted; a frame is handed out
  unless it is empty. -/
  list : ∃ chain, Chain m.paging.words m.paging.head chain ∧ (chain ++ m.held).Nodup ∧
    (∀ f, f ∈ chain ++ m.held ↔ Usable regions f) ∧ m.paging.free = chain.length ∧
    (m.paging.allocate.1 = none ↔ chain = [])
  /-- What the allocator changes is the first word of a frame that is then free. -/
  quiet : ∀ e m', step m e = some m' → (∀ f i w, e ≠ .store f i w) → ∀ f i,
    m'.paging.words f i ≠ m.paging.words f i → i = 0 ∧ OnFreeList m'.paging f

/-- `init` frees each whole frame of the usable regions once, and so the list stays
through all that is then taken, given back and written. -/
theorem free_list_law (empty : s.head = 0) (none : s.free = 0) (below : ∀ r ∈ regions, Below r)
    (apart : regions.Pairwise fun r r' => ∀ x : Nat, ¬((r.start.toNat ≤ x ∧ x < r.stop.toNat) ∧
      r'.start.toNat ≤ x ∧ x < r'.stop.toNat)) :
    ∃ c, (∀ rounds, 2 ^ 40 < rounds → init rounds regions ⟨s, 0⟩ = some c) ∧
      (∃ chain, Chain c.paging.words c.paging.head chain ∧ chain.Nodup ∧
        (∀ f, f ∈ chain ↔ Usable regions f) ∧ c.paging.free = chain.length ∧
        c.total = chain.length) ∧
      (∀ f i, c.paging.words f i ≠ s.words f i → i = 0 ∧ OnFreeList c.paging f) ∧
      ∀ events m, runAll step ⟨c.paging, []⟩ events = some m → Orderly m regions := by
  have once := nodup_frames below apart
  have frames : ∀ f, f ∈ regions.flatMap framesOf ↔ Usable regions f := fun f => mem_frames below
  have nonzero : ∀ f ∈ regions.flatMap framesOf, f ≠ 0 := by
    rintro f inside rfl
    obtain ⟨r, -, -, -, high, -⟩ := (frames 0).mp inside
    exact absurd high (by decide)
  obtain ⟨shares, kept⟩ := shares_init empty none once nonzero
  have listed : ∀ f, f ∈ (regions.flatMap framesOf).reverse ↔ Usable regions f := fun f =>
    List.mem_reverse.trans (frames f)
  refine ⟨_, fun rounds enough => init_eq enough below ⟨s, 0⟩,
    ⟨_, shares.linked, List.nodup_reverse.mpr once, listed, shares.count, ?_⟩, fun f i changed => ?_,
    fun events m taken => ?_⟩
  · rw [List.length_reverse]
    exact Nat.zero_add _
  · by_contra neither
    refine changed (kept f i fun both => neither ⟨both.2, _, shares.linked, ?_⟩)
    exact List.mem_reverse.mpr both.1
  · obtain ⟨chain, shares'⟩ := shares.runAll once nonzero taken
    exact ⟨⟨chain, shares'.linked, shares'.nodup once, fun f => shares'.shared.mem_iff.trans (frames f),
      shares'.count, shares'.allocate_none⟩, fun e m' moved own f i =>
        shares'.quiet once nonzero moved own⟩

/-- A map with memory below the first megabyte, and past it three whole frames between two
partial ones. -/
def smallMap : List MemoryRegion :=
  [⟨0, 0x9fc00, .usable⟩, ⟨0x9fc00, 0x100800, .unknownBios 2⟩, ⟨0x100800, 0x104800, .usable⟩,
    ⟨0x104800, 0x106000, .bootloader⟩]

theorem free_list_law_smallMap :
    ∃ c, (∀ rounds, 2 ^ 40 < rounds → init rounds smallMap ⟨Boot.statics, 0⟩ = some c) ∧
      (∃ chain, Chain c.paging.words c.paging.head chain ∧ chain.Nodup ∧
        (∀ f, f ∈ chain ↔ Usable smallMap f) ∧ c.paging.free = chain.length ∧
        c.total = chain.length) ∧
      (∀ f i, c.paging.words f i ≠ Boot.statics.words f i → i = 0 ∧ OnFreeList c.paging f) ∧
      ∀ events m, runAll step ⟨c.paging, []⟩ events = some m → Orderly m smallMap := by
  have below : ∀ r ∈ smallMap, Below r := by
    unfold Below
    decide
  refine free_list_law rfl rfl below ?_
  simp [smallMap]
  refine ⟨⟨?_, ?_, ?_⟩, ⟨?_, ?_⟩, ?_⟩
  all_goals
    intros
    omega

end Law

end FiveAM.Memory.FreeList
