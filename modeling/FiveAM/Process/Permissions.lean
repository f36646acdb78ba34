/- GID: FiveAM/Process/Permissions
   source: kernel/src/elf.rs, kernel/src/memory.rs
   digest: What ring 3 may do on the pages of a loaded program, and when that is what its segments asked for. -/

import FiveAM.Process.LoadedFile
import FiveAM.Process.SignalFrames

set_option autoImplicit false
set_option relaxedAutoImplicit false

namespace FiveAM.Process.Permissions

open FiveAM.Process.TaskTable (Word)
open FiveAM.Process.Machine (Canonical)
open FiveAM.Memory.Entries FiveAM.Memory.Frames FiveAM.Memory.PageTables FiveAM.Memory.Ownership
open FiveAM.Memory.CopyOnWrite FiveAM.Memory.KernelStores FiveAM.Memory.Boot
open FiveAM.Memory.UserBytes FiveAM.Memory.UserImage FiveAM.Memory.UserWays
open FiveAM.Lib.RadixTables FiveAM.Lib.Programs
open FiveAM.Process.Elf FiveAM.Process.ElfFiles FiveAM.Process.ElfRuns FiveAM.Process.LoadedImage
open FiveAM.Process.LoadedFile FiveAM.Process.SignalFrames

section Processor

/-- The processor's check of a fetch by ring 3, from a table at a level on, with `EFER.NXE`
set. -/
def fetches (s : Paging) (address : Word) : Nat → Word → Bool
  | 0, table =>
      let entry := s.words table (indexes address 0)
      has entry present && has entry user && !has entry noExecute
  | level + 1, table =>
      let entry := s.words table (indexes address (level + 1))
      has entry present && has entry user && !has entry noExecute &&
        (has entry huge || fetches s address level (frameOf entry))

/-- Ring 3 may run the instruction at an address now. -/
def UserRuns (s : Paging) (address : Word) : Prop :=
  Canonical address ∧ fetches s address 3 s.cr3 = true

instance decidableUserRuns (s : Paging) (address : Word) : Decidable (UserRuns s address) :=
  inferInstanceAs (Decidable (_ ∧ _))

variable {s : Paging} {address root table : Word} {level : Nat}

theorem ringThree_eq (sound : Sound s.words root) (low : indexes address 3 = 0)
    (route : Route userTree s.words (indexes address) 3 root level table)
    (ways : ∀ e ∈ trail s.words level table (indexes address), Passable e) (write : Bool) :
    ringThree s write address level table =
      (has (entryAt userTree s.words level table (indexes address)) present &&
        has (entryAt userTree s.words level table (indexes address)) user &&
        (!write || has (entryAt userTree s.words level table (indexes address)) writable ||
          has (entryAt userTree s.words level table (indexes address)) cow)) := by
  induction level generalizing table with
  | zero => rfl
  | succ level ih =>
      unfold ringThree
      dsimp only
      rcases sound.entry low route with ⟨absent, ends⟩ | ⟨there, open', down⟩
      · rw [entryAt_stop ends, absent]
        rfl
      · obtain ⟨-, small, -, -⟩ := child_some down
        rw [trail_down down] at ways
        have pass := (ways _ List.mem_cons_self).1
        have rest := ih (route.next down) fun e inside => ways e (List.mem_cons_of_mem _ inside)
        rw [entryAt_child down, ← rest, there, open', small, pass, Bool.or_true]
        rfl

theorem fetches_eq (sound : Sound s.words root) (low : indexes address 3 = 0)
    (route : Route userTree s.words (indexes address) 3 root level table)
    (ways : ∀ e ∈ trail s.words level table (indexes address), Passable e) :
    fetches s address level table =
      (has (entryAt userTree s.words level table (indexes address)) present &&
        has (entryAt userTree s.words level table (indexes address)) user &&
        !has (entryAt userTree s.words level table (indexes address)) noExecute) := by
  induction level generalizing table with
  | zero => rfl
  | succ level ih =>
      unfold fetches
      dsimp only
      rcases sound.entry low route with ⟨absent, ends⟩ | ⟨there, -, down⟩
      · rw [entryAt_stop ends, absent]
        rfl
      · obtain ⟨-, small, -, -⟩ := child_some down
        rw [trail_down down] at ways
        obtain ⟨pass, runs⟩ := ways _ List.mem_cons_self
        have rest := ih (route.next down) fun e inside => ways e (List.mem_cons_of_mem _ inside)
        rw [entryAt_child down, ← rest, there, small, pass, runs]
        rfl

end Processor

section Pages

variable {before s : Paging} {managed live : Finset Word} {hand chain : List Word} {root a : Word}
  {image : SpaceImage} {page : PageImage}

theorem may_iff (shows : Shows before s managed live hand chain root image)
    (inside : a < userSpaceEnd) (there : image (a.toNat / pageSize) = some page) :
    (UserMay s true a ↔ page.writable = true) ∧ (UserRuns s a ↔ page.executable = true) := by
  have backed := shows.reads inside
  rw [there] at backed
  have canonical : Canonical a := canonical_of_user inside
  have low := low_of_user inside
  have leaf : entryAt userTree s.words 3 root (indexes a) = leafAt s.words root (indexes a) := rfl
  constructor
  · rw [UserMay, shows.active,
      ringThree_eq shows.sound low (.here 3 root) (shows.ways (indexes a)) true, leaf, backed.present,
      backed.user, backed.writable, backed.cow]
    simp [canonical]
  · rw [UserRuns, shows.active, fetches_eq shows.sound low (.here 3 root) (shows.ways (indexes a)),
      leaf, backed.present, backed.user, backed.executable]
    simp [canonical]

end Pages

section Segments

variable {before s s' : Paging} {managed live : Finset Word} {hand chain : List Word} {root : Word}
  {image : SpaceImage} {data : List UInt8} {setting : Setting} {t : Loading}

/-- Every segment has what it asked for, and no page more than some segment on it. -/
def Granted (data : List UInt8) (s : Paging) : Prop :=
  ∀ h ∈ segments data, ∀ a, a < userSpaceEnd → Meets h (a.toNat / pageSize) →
    (Writes h → UserMay s true a) ∧ (Runs h → UserRuns s a) ∧
    ((∀ h' ∈ segments data, Meets h' (a.toNat / pageSize) → ¬Writes h') → ¬UserMay s true a) ∧
    ((∀ h' ∈ segments data, Meets h' (a.toNat / pageSize) → ¬Runs h') → ¬UserRuns s a)

/-- On every page the last segment asks for all that any segment there asks for. -/
def LastAsksMost (data : List UInt8) : Prop :=
  ∀ h ∈ segments data, ∀ n, Meets h n → ∀ last, lastMeeting (segments data) n = some last →
    (Writes h → Writes last) ∧ (Runs h → Runs last)

theorem lastMeeting_some {h : ProgramHeader} {n : Nat} (member : h ∈ segments data)
    (meets : Meets h n) : ∃ last, lastMeeting (segments data) n = some last ∧
      last ∈ segments data ∧ Meets last n := by
  have some' : (segments data).filter (fun h => Meets h n) ≠ [] :=
    List.ne_nil_of_mem (List.mem_filter.mpr ⟨member, decide_eq_true meets⟩)
  have last := List.getLast_mem some'
  refine ⟨_, List.getLast?_eq_some_getLast some', (List.mem_filter.mp last).1, ?_⟩
  exact of_decide_eq_true (List.mem_filter.mp last).2

theorem last_decides (shows : Shows before s managed live hand chain root image)
    (imaged : Imaged true data image) {a : Word} (inside : a < userSpaceEnd) {last : ProgramHeader}
    (found : lastMeeting (segments data) (a.toNat / pageSize) = some last)
    (member : last ∈ segments data) (meets : Meets last (a.toNat / pageSize)) :
    (UserMay s true a ↔ Writes last) ∧ (UserRuns s a ↔ Runs last) := by
  obtain ⟨page, there⟩ := Option.isSome_iff_exists.mp ((imaged.there _).mpr ⟨last, member, meets⟩)
  have right := imaged.right _ page there
  rw [found] at right
  obtain ⟨writes, runs⟩ := Prod.mk.inj right
  obtain ⟨may, run⟩ := may_iff shows inside there
  rw [may, run, writes, runs, Bool.not_true, Bool.or_false, decide_eq_true_iff, decide_eq_true_iff]
  exact ⟨Iff.rfl, Iff.rfl⟩

theorem granted_iff (shows : Shows before s managed live hand chain root image)
    (imaged : Imaged true data image) (valid : ∀ h ∈ segments data, Valid data h) :
    Granted data s ↔ LastAsksMost data := by
  constructor
  · intro granted h member n meets last found
    have page := (valid h member).pages_below (mem_segments.mp member).2 meets
    have place := pageWord_toNat page
    have number : (pageWord n).toNat / pageSize = n := by
      rw [place]
      exact Nat.mul_div_cancel n (by decide)
    have inside : pageWord n < userSpaceEnd := by
      rw [user_toNat, place]
      unfold pageSize
      omega
    obtain ⟨last', found', member', meets'⟩ := lastMeeting_some member meets
    obtain rfl := Option.some.inj (found'.symm.trans found)
    obtain ⟨writes, runs, -, -⟩ := granted h member _ inside (by rwa [number])
    obtain ⟨may, run⟩ := last_decides shows imaged inside (by rwa [number]) member' (by rwa [number])
    exact ⟨fun asks => may.mp (writes asks), fun asks => run.mp (runs asks)⟩
  · intro most h member a inside meets
    obtain ⟨last, found, member', meets'⟩ := lastMeeting_some member meets
    obtain ⟨may, run⟩ := last_decides shows imaged inside found member' meets'
    obtain ⟨writes, runs⟩ := most h member _ meets last found
    exact ⟨fun asks => may.mpr (writes asks), fun asks => run.mpr (runs asks),
      fun none allowed => none last member' meets' (may.mp allowed),
      fun none allowed => none last member' meets' (run.mp allowed)⟩

/-- A loaded program has the permissions its segments ask for exactly when on every page the last
segment asks for the most. -/
theorem permissions_granted_iff (patient : Patient setting) (books : Books s managed live hand chain)
    (made : newSpace s = (some root, s')) (active : setting.noExecuteActive = true) {counts : Loaded}
    (loads : Elf.load setting data (fresh s' root) = .returned (.ok counts) t) :
    Granted data t.paging ↔ LastAsksMost data := by
  have ends := load_fresh data patient books made
  unfold Ends at ends
  rw [loads] at ends
  obtain ⟨accepted, -, -, image, ⟨hand', chain', shows, -⟩, imaged⟩ := ends
  rw [active] at imaged
  exact granted_iff shows imaged accepted.valid

theorem permissions_granted_oneSegment : ∃ s s' counts t, newSpace s = (some 0x101000, s') ∧
    Elf.load eager oneSegment (fresh s' 0x101000) = .returned (.ok counts) t ∧
    Granted oneSegment t.paging := by
  obtain ⟨s', made, books⟩ := fewFrames_fresh
  obtain ⟨counts, t, loads⟩ := load_returns oneSegment patient_eager books made
    (by decide +kernel) (fun _ _ => rfl) (by decide +kernel)
  refine ⟨_, s', counts, t, made, loads, (permissions_granted_iff patient_eager books made rfl
    loads).mpr fun h member n meets last found => ?_⟩
  obtain ⟨last', found', member', -⟩ := lastMeeting_some member meets
  obtain rfl := Option.some.inj (found'.symm.trans found)
  have one : segments oneSegment = [⟨ptLoad, 5, 0, 0x400000, 0, 4, 16, 0⟩] := by decide +kernel
  rw [one] at member member'
  rw [List.mem_singleton.mp member, List.mem_singleton.mp member']
  exact ⟨id, id⟩

/-- A page of data and, behind it on the same page, code. -/
def sharedPage : List UInt8 := fileOf 0x400800
  [⟨ptLoad, 6, 0, 0x400000, 0, 4, 16, 0⟩, ⟨ptLoad, 5, 0, 0x400800, 0, 4, 16, 0⟩]

/-- The data of the first segment may not be written. -/
theorem sharedPage_not_granted : ∃ s s' counts t, newSpace s = (some 0x101000, s') ∧
    Elf.load eager sharedPage (fresh s' 0x101000) = .returned (.ok counts) t ∧
    ¬Granted sharedPage t.paging := by
  obtain ⟨s', made, books⟩ := fewFrames_fresh
  obtain ⟨counts, t, loads⟩ := load_returns sharedPage patient_eager books made
    (by decide +kernel) (fun _ _ => rfl) (by decide +kernel)
  refine ⟨_, s', counts, t, made, loads, fun granted => ?_⟩
  have ends := load_fresh sharedPage patient_eager books made
  unfold Ends at ends
  rw [loads] at ends
  obtain ⟨accepted, -, -, image, ⟨hand, chain, shows, -⟩, imaged⟩ := ends
  have two : segments sharedPage =
      [⟨ptLoad, 6, 0, 0x400000, 0, 4, 16, 0⟩, ⟨ptLoad, 5, 0, 0x400800, 0, 4, 16, 0⟩] := by
    decide +kernel
  have last : lastMeeting (segments sharedPage) 0x400 = some ⟨ptLoad, 5, 0, 0x400800, 0, 4, 16, 0⟩ := by
    rw [two]
    decide
  have first : (⟨ptLoad, 6, 0, 0x400000, 0, 4, 16, 0⟩ : ProgramHeader) ∈ segments sharedPage := by
    rw [two]
    exact List.mem_cons_self
  have asks := (granted_iff shows imaged accepted.valid).mp granted _ first 0x400 (by decide) _ last
  exact absurd (asks.1 (by decide)) (by decide)

end Segments

end FiveAM.Process.Permissions
