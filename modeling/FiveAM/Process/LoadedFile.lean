/- GID: FiveAM/Process/LoadedFile
   source: kernel/src/elf.rs
   digest: A whole load into a space that has no pages: when it succeeds and what the pages are then. -/

import FiveAM.Memory.Boot
import FiveAM.Process.LoadedImage

set_option autoImplicit false
set_option relaxedAutoImplicit false

namespace FiveAM.Process.LoadedFile

open FiveAM.Process.TaskTable (Word)
open FiveAM.Memory.Entries FiveAM.Memory.Frames FiveAM.Memory.PageTables
open FiveAM.Memory.Ownership FiveAM.Memory.CopyOnWrite FiveAM.Memory.StackGrowth
open FiveAM.Memory.Boot FiveAM.Memory.Spaces FiveAM.Memory.UserBytes FiveAM.Memory.UserImage
open FiveAM.Lib.RadixTables FiveAM.Lib.Programs FiveAM.Lib.Programs.Program
open FiveAM.Process.Elf FiveAM.Process.ElfFiles FiveAM.Process.ElfRuns FiveAM.Process.LoadedImage

variable {before : Paging} {managed live : Finset Word} {root : Word} {room : Nat}
  {setting : Setting} {data : List UInt8} {hs after : List ProgramHeader} {h : ProgramHeader}
  {progress : Progress} {t : Loading}

def Asked (hs : List ProgramHeader) (n : Nat) : Prop := ∃ h ∈ loaded hs, Meets h n

/-- The load has come to nothing: the file is not a program the loader takes, or memory is short. -/
def Fails (before : Paging) (managed live : Finset Word) (root : Word) (room : Nat)
    (setting : Setting) (data : List UInt8) (t : Loading) : Prop :=
  (¬Accepted data ∨ room < framesNeeded data) ∧
    (room < framesTried data ∨ Roomy setting.grants data) ∧
    ∃ image, Fills before managed live root 0 image t

/-- The list has every page once, and the heap has granted its growth. -/
def Tallied (grants : Nat → Bool) (there : Nat → Prop) (pages : List Word) : Prop :=
  ∃ met : Finset Nat, (∀ n, n ∈ met ↔ there n) ∧ pages.length = met.card ∧
    ∀ count < met.card, grants count = true

/-- What has been loaded by some headers and `more` pages of the next. -/
def Partly (before : Paging) (managed live : Finset Word) (root : Word) (room : Nat)
    (setting : Setting) (data : List UInt8) (hs : List ProgramHeader) (there : Nat → Prop) (more : Nat)
    (progress : Progress) (t : Loading) : Prop :=
  ∃ image, Fills before managed live root (room - 4 * (pages hs + more)) image t ∧
    Shaped there (byteFrom data (loaded hs)) image ∧ Counts data hs more progress ∧
    Tallied setting.grants there progress.pages

section Heap

variable {grants : Nat → Bool} {there there' : Nat → Prop} {list : List Word}

theorem Tallied.congr (tallied : Tallied grants there list) (same : ∀ n, there' n ↔ there n) :
    Tallied grants there' list := by
  obtain ⟨met, meets, length, granted⟩ := tallied
  exact ⟨met, fun n => (meets n).trans (same n).symm, length, granted⟩

theorem Tallied.push (tallied : Tallied grants there list) {n : Nat} (absent : ¬there n)
    (granted : grants list.length = true) (page : Word) :
    Tallied grants (fun m => there m ∨ m = n) (list ++ [page]) := by
  obtain ⟨met, meets, length, before⟩ := tallied
  have fresh : n ∉ met := fun inside => absent ((meets n).mp inside)
  refine ⟨insert n met, fun m => ?_, ?_, fun count below => ?_⟩
  · rw [Finset.mem_insert, meets, or_comm]
  · rw [List.length_append, List.length_singleton, length, Finset.card_insert_of_notMem fresh]
  · rw [Finset.card_insert_of_notMem fresh] at below
    rcases Nat.lt_succ_iff_lt_or_eq.mp below with old | rfl
    · exact before count old
    · rwa [← length]

theorem segments_split (split : headers data = hs ++ h :: after) :
    segments data = loaded hs ++ loaded (h :: after) := by
  change loaded (headers data) = _
  rw [split]
  exact List.filter_append ..

theorem tried_refused (split : headers data = hs ++ h :: after)
    (valid : ∀ h ∈ loaded hs, Valid data h) (loads : Loads h) (invalid : ¬Valid data h) :
    tried data = loaded hs := by
  have first : loaded (h :: after) = h :: loaded after := List.filter_cons_of_pos (by simpa using loads)
  rw [tried, segments_split split, List.takeWhile_append_of_pos fun h inside =>
    decide_eq_true (valid h inside), first, List.takeWhile_cons_of_neg (by simpa using invalid),
    List.append_nil]

theorem tried_passed (split : headers data = hs ++ h :: after)
    (valid : ∀ h ∈ loaded hs, Valid data h) (loads : Loads h) (this : Valid data h) :
    ∃ rest, tried data = loaded hs ++ h :: rest := by
  have first : loaded (h :: after) = h :: loaded after := List.filter_cons_of_pos (by simpa using loads)
  refine ⟨(loaded after).takeWhile fun h => Valid data h, ?_⟩
  rw [tried, segments_split split, List.takeWhile_append_of_pos fun h inside =>
    decide_eq_true (valid h inside), first, List.takeWhile_cons_of_pos (by simpa using this)]

theorem tried_valid (valid : ∀ h ∈ segments data, Valid data h) : tried data = segments data :=
  List.takeWhile_eq_self_iff.mpr fun h inside => decide_eq_true (valid h inside)

theorem Tallied.roomy (tallied : Tallied grants (Asked hs) list) (all : tried data = loaded hs) :
    Roomy grants data := by
  obtain ⟨met, meets, -, granted⟩ := tallied
  have same : met = pagesOf (loaded hs) := by
    ext n
    rw [meets, mem_pagesOf]
    rfl
  intro count below
  refine granted count (lt_of_lt_of_le below ?_)
  rw [pagesTried, all, same]
  split_ifs
  · exact Nat.le_refl _
  · exact Nat.zero_le _

theorem Tallied.not_roomy (tallied : Tallied grants there list) (tabled : Tabled data) {n : Nat}
    (inside : ∀ m, there m ∨ m = n → m ∈ pagesOf (tried data)) (absent : ¬there n)
    (full : grants list.length = false) : ¬Roomy grants data := by
  obtain ⟨met, meets, length, -⟩ := tallied
  have fresh : n ∉ met := fun member => absent ((meets n).mp member)
  have within : insert n met ⊆ pagesOf (tried data) := by
    intro m member
    refine inside m ?_
    rwa [Finset.mem_insert, meets, or_comm] at member
  have fewer := Finset.card_le_card within
  rw [Finset.card_insert_of_notMem fresh, ← length] at fewer
  intro roomy
  have granted := roomy list.length (by rw [pagesTried, if_pos tabled]; exact fewer)
  rw [full] at granted
  cases granted

theorem not_tabled_roomy (untabled : ¬Tabled data) : Roomy grants data := by
  intro count below
  rw [pagesTried, if_neg untabled] at below
  exact absurd below (Nat.not_lt_zero _)

end Heap

section FirstPass

theorem pages_split (loads : Loads h) (split : headers data = hs ++ h :: after) :
    4 * (pages hs + pageCount h) ≤ framesNeeded data := by
  have total : framesNeeded data = 4 * pages (headers data) := rfl
  have whole : pages (hs ++ h :: after) = pages (hs ++ [h]) + pages after := by
    rw [List.append_cons]
    unfold pages loaded
    rw [List.filter_append, List.map_append, List.sum_append]
  rw [total, split, whole, pages_append, if_pos loads]
  omega

theorem asked_append (loads : Loads h) (n : Nat) :
    Asked (hs ++ [h]) n ↔ Asked hs n ∨ Meets h n := by
  unfold Asked
  rw [loaded_append, if_pos loads]
  constructor
  · rintro ⟨h', member, meets⟩
    rcases List.mem_append.mp member with old | new
    · exact .inl ⟨h', old, meets⟩
    · rw [List.mem_singleton.mp new] at meets
      exact .inr meets
  · rintro (⟨h', member, meets⟩ | meets)
    · exact ⟨h', List.mem_append_left _ member, meets⟩
    · exact ⟨h, List.mem_append_right _ (List.mem_singleton_self h), meets⟩

theorem pages_tried (split : headers data = hs ++ h :: after)
    (valid : ∀ h ∈ loaded hs, Valid data h) (loads : Loads h) (this : Valid data h) :
    4 * (pages hs + pageCount h) ≤ framesTried data := by
  obtain ⟨rest, all⟩ := tried_passed split valid loads this
  rw [framesTried, all, List.map_append, List.sum_append, List.map_cons, List.sum_cons]
  unfold pages
  omega

/-- The pages of the headers before, and those of this one below the page that is next. -/
def SoFar (hs : List ProgramHeader) (h : ProgramHeader) (n m : Nat) : Prop :=
  Asked hs m ∨ (h.virtualAddress / pageSize ≤ m ∧ m < n)

theorem soFar_succ {n : Nat} (low : h.virtualAddress / pageSize ≤ n) (m : Nat) :
    SoFar hs h (n + 1) m ↔ SoFar hs h n m ∨ m = n := by
  unfold SoFar
  rw [or_assoc]
  refine or_congr_right ?_
  omega

theorem backPage_partly {post : Post Loading Progress} {n : Nat} (patient : Patient setting)
    (tabled : Tabled data) (split : headers data = hs ++ h :: after) (loads : Loads h)
    (valid : Valid data h) (meets : Meets h n)
    (partly : Partly before managed live root room setting data hs (SoFar hs h n)
      (n - h.virtualAddress / pageSize) progress t)
    (error : ∀ text t, Fails before managed live root room setting data t → post.error text t)
    (refused : ¬Roomy setting.grants data → ∀ t, post.stopped .exhausted t)
    (ok : ∀ progress t, Partly before managed live root room setting data hs (SoFar hs h (n + 1))
      (n + 1 - h.virtualAddress / pageSize) progress t → post.ok progress t) :
    Ends (backPage setting (pageWord n) progress) t post := by
  obtain ⟨image, fills, shaped, counts, tallied⟩ := partly
  have below := valid.pages_below loads meets
  have room' := pages_split loads split
  have room'' := pages_tried split counts.valid loads valid
  have low : h.virtualAddress / pageSize ≤ n := meets.1
  have high : n - h.virtualAddress / pageSize < pageCount h := by
    have last := meets.2
    unfold ElfFiles.pageCount
    omega
  have apart : n + 1 - h.virtualAddress / pageSize = n - h.virtualAddress / pageSize + 1 := by omega
  have step : room - 4 * (pages hs + (n - h.virtualAddress / pageSize)) - 4 =
      room - 4 * (pages hs + (n + 1 - h.virtualAddress / pageSize)) := by
    rw [apart]
    omega
  have next : ∀ m, SoFar hs h (n + 1) m ↔ SoFar hs h n m ∨ m = n := soFar_succ low
  refine backPage_ends patient below fills shaped (fun absent => ?_) ?_ ?_ ?_ ?_
  · exact byteFrom_outside counts.valid fun asked => absent (.inl asked)
  · exact (counts.small split (Nat.le_of_lt (lt_of_le_of_lt (Nat.sub_le _ _) below))).1
  · exact fun text t image fills short =>
      error text t ⟨.inr (by omega), .inl (by omega), image, fills⟩
  · refine fun absent full => refused (tallied.not_roomy tabled (fun m among => ?_) absent full)
    obtain ⟨rest, all⟩ := tried_passed split counts.valid loads valid
    rw [mem_pagesOf, all]
    rcases (next m).mpr among with ⟨h', member, meets'⟩ | ⟨above, under⟩
    · exact ⟨h', List.mem_append_left _ member, meets'⟩
    · exact ⟨h, List.mem_append_right _ List.mem_cons_self, above,
        (Nat.lt_succ_iff.mp under).trans meets.2⟩
  · intro t image progress' fills shaped change
    rw [step] at fills
    refine ok _ _ ⟨image, fills, ⟨fun m => ?_, shaped.open', shaped.bytes⟩, ?_⟩
    · rw [shaped.there m, next m]
    · rw [apart]
      rcases change with ⟨already, rfl⟩ | ⟨absent, granted, rfl⟩
      · refine ⟨counts.pass, tallied.congr fun m => (next m).trans ⟨?_, .inl⟩⟩
        exact fun either => either.elim id fun same => same ▸ already
      · exact ⟨counts.zero _, (tallied.push absent granted _).congr next⟩

theorem loadSegment_fills {post : Post Loading Progress} (patient : Patient setting)
    (tabled : Tabled data) (split : headers data = hs ++ h :: after)
    (partly : Partly before managed live root room setting data hs (Asked hs) 0 progress t)
    (error : ∀ text t, Fails before managed live root room setting data t → post.error text t)
    (refused : ¬Roomy setting.grants data → ∀ t, post.stopped .exhausted t)
    (ok : ∀ progress t, Partly before managed live root room setting data (hs ++ [h])
      (Asked (hs ++ [h])) 0 progress t → post.ok progress t) :
    Ends (loadSegment setting data h progress) t post := by
  have here : Loads h → h ∈ segments data := fun loads => by
    rw [mem_segments, split]
    exact ⟨List.mem_append_right _ List.mem_cons_self, loads⟩
  obtain ⟨image, fills, shaped, counts, tallied⟩ := partly
  have sound := counts.valid
  refine loadSegment_ends patient
    (fun n => Partly before managed live root room setting data hs (SoFar hs h n)
      (n - h.virtualAddress / pageSize))
    (fun progress t => ∃ image,
      Fills before managed live root (room - 4 * (pages hs + pageCount h)) image t ∧
      Shaped (Asked (hs ++ [h])) (byteFrom data (loaded (hs ++ [h]))) image ∧
      Counts data hs (pageCount h) progress ∧ Valid data h ∧
      Tallied setting.grants (Asked (hs ++ [h])) progress.pages) ?_ ?_ ?_ ?_ ?_ ?_
  · intro skipped
    have same : loaded (hs ++ [h]) = loaded hs := (loaded_append hs h).trans (if_neg skipped)
    have asked : Asked (hs ++ [h]) = Asked hs := by
      unfold Asked
      rw [same]
    refine ok progress t ⟨image, ?_, ?_, counts.skip skipped, asked ▸ tallied⟩
    · rw [pages_append, if_neg skipped]
      exact fills
    · rw [asked, same]
      exact shaped
  · intro loads invalid text
    exact error text t ⟨.inl fun accepted => invalid (accepted.valid h (here loads)),
      .inr (tallied.roomy (tried_refused split sound loads invalid)), image, fills.less⟩
  · intro _ _
    have none : ∀ m, SoFar hs h (h.virtualAddress / pageSize) m ↔ Asked hs m := fun m =>
      ⟨fun either => either.elim id fun both => absurd both.2 (Nat.not_lt.mpr both.1), .inl⟩
    refine ⟨image, by rwa [Nat.sub_self], ⟨fun m => ?_, shaped.open', shaped.bytes⟩, by
      rwa [Nat.sub_self], tallied.congr none⟩
    rw [shaped.there m, none m]
  · exact fun loads valid n progress t meets partly =>
      backPage_partly patient tabled split loads valid meets partly error refused fun _ _ => id
  · rintro loads valid progress t ⟨image, fills, shaped, counts, tallied⟩
    have some := loads.2
    have below := valid.below
    have whole : pageAfter h - h.virtualAddress / pageSize = pageCount h := rfl
    rw [whole] at fills counts
    have there : ∀ m, SoFar hs h (pageAfter h) m ↔ Asked (hs ++ [h]) m := by
      intro m
      rw [asked_append loads]
      exact or_congr_right (and_congr_right fun _ => Nat.lt_succ_iff)
    have larger := valid.larger
    refine copyIn_ends patient ?_ fills shaped (fun a low high => .inr ?_) fun t image fills shaped => ?_
    · rw [source_length valid]
      omega
    · rw [source_length valid] at high
      exact and_congr_right (fun _ => Nat.lt_succ_iff) |>.mpr
        (meets_of_gives valid loads ⟨low, high⟩)
    · refine ⟨image, fills, ⟨fun m => (shaped.there m).trans (there m), shaped.open', ?_⟩, counts, valid,
        tallied.congr fun m => (there m).symm⟩
      rw [loaded_append, if_pos loads, byteFrom_append valid]
      exact shaped.bytes
  · rintro loads progress t ⟨image, fills, shaped, counts, valid, tallied⟩
    have few : pageCount h ≤ 2 ^ 19 := by
      have below := valid.below
      unfold ElfFiles.pageCount pageSize
      unfold userAddressLimit at below
      omega
    refine ⟨(counts.small split few).2, ok _ _ ⟨image, ?_, shaped, counts.finish loads valid, tallied⟩⟩
    rw [pages_append, if_pos loads]
    exact fills

end FirstPass

section SecondPass

/-- What ring 3 may do on a page whose flags were set for a segment last: write, run. -/
def rights (active : Bool) : Option ProgramHeader → Bool × Bool
  | none => (true, true)
  | some h => (decide (Writes h), decide (Runs h) || !active)

/-- An image of the second pass: the pages and bytes the file asks for, and what has been sealed. -/
structure Sealed (data : List UInt8) (right : Nat → Bool × Bool) (image : SpaceImage) : Prop where
  there : ∀ n, (image n).isSome = true ↔ ∃ h ∈ segments data, Meets h n
  bytes : ∀ n page, image n = some page → ∀ o < pageSize,
    page.bytes o = fileByte data (n * pageSize + o)
  right : ∀ n page, image n = some page → (page.writable, page.executable) = right n

theorem setFlags_seals {post : Post Loading Unit} {right right' : Nat → Bool × Bool}
    {image : SpaceImage} {n : Nat} (below : n < 2 ^ 19)
    (fills : Fills before managed live root room image t) (seals : Sealed data right image)
    (asked : ∃ h ∈ segments data, Meets h n) {active : Bool} {flags : Nat}
    (here : right' n = (decide (flags &&& pfW ≠ 0), decide (flags &&& pfX ≠ 0) || !active))
    (elsewhere : ∀ m, m ≠ n → right' m = right m)
    (done : ∀ t image, Fills before managed live root room image t → Sealed data right' image →
      post.ok () t) : Ends (Elf.setFlags (pageWord n) (pageFlags active flags)) t post := by
  obtain ⟨hand, chain, shows, enough⟩ := fills
  obtain ⟨page, present'⟩ := Option.isSome_iff_exists.mp ((seals.there n).mpr asked)
  have place := pageWord_toNat below
  have number : (pageWord n).toNat / pageSize = n := by
    rw [place]
    exact Nat.mul_div_cancel n (by decide)
  have inside : pageWord n < userSpaceEnd := by
    rw [user_toNat, place]
    unfold pageSize
    omega
  obtain ⟨s, changed, shows'⟩ := shows.setFlags inside (number.symm ▸ present')
    frameOf_pageFlags pageFlags_user pageFlags_cow
  rw [number] at shows'
  refine setFlags_ends changed (done _ _ ⟨hand, chain, shows', enough⟩ ⟨fun m => ?_,
    fun m page' found o low => ?_, fun m page' found => ?_⟩)
  · by_cases same : m = n
    · rw [same, Function.update_self]
      exact iff_of_true rfl asked
    · rw [Function.update_of_ne same]
      exact seals.there m
  · by_cases same : m = n
    · rw [same, Function.update_self] at found
      rw [← Option.some.inj found, same]
      exact seals.bytes n page present' o low
    · rw [Function.update_of_ne same] at found
      exact seals.bytes m page' found o low
  · by_cases same : m = n
    · rw [same, Function.update_self] at found
      rw [← Option.some.inj found, same, here, pageFlags_writable, pageFlags_noExecute, Bool.not_and,
        ← decide_not]
    · rw [Function.update_of_ne same] at found
      rw [elsewhere m same]
      exact seals.right m page' found

theorem sealPages_seals {post : Post Loading Unit} {image : SpaceImage} (patient : Patient setting)
    (split : headers data = hs ++ h :: after) (valid : ∀ h ∈ segments data, Valid data h)
    (fills : Fills before managed live root room image t)
    (seals : Sealed data (fun n => rights setting.noExecuteActive (lastMeeting (loaded hs) n)) image)
    (done : ∀ t image, Fills before managed live root room image t →
      Sealed data (fun n => rights setting.noExecuteActive (lastMeeting (loaded (hs ++ [h])) n)) image →
        post.ok () t) : Ends (sealPages setting h) t post := by
  have here : Loads h → h ∈ segments data := fun loads => by
    rw [mem_segments, split]
    exact ⟨List.mem_append_right _ List.mem_cons_self, loads⟩
  refine sealPages_ends patient (fun n t => ∃ image, Fills before managed live root room image t ∧
    Sealed data (fun m => rights setting.noExecuteActive
      (if h.virtualAddress / pageSize ≤ m ∧ m < n then some h else lastMeeting (loaded hs) m)) image)
    ?_ ?_ ?_ ?_ ?_
  · intro skipped
    refine done t image fills ?_
    rw [loaded_append, if_neg skipped]
    exact seals
  · exact fun loads => (valid h (here loads)).below
  · intro _
    refine ⟨image, fills, seals.there, seals.bytes, fun n page found => ?_⟩
    rw [if_neg fun both => absurd both.2 (Nat.not_lt.mpr both.1)]
    exact seals.right n page found
  · rintro loads n t meets ⟨image, fills, seals⟩
    refine setFlags_seals ((valid h (here loads)).pages_below loads meets) fills seals
      ⟨h, here loads, meets⟩
      ?_ (fun m other => ?_) fun t image fills seals => ⟨image, fills, seals⟩
    · rw [if_pos ⟨meets.1, Nat.lt_succ_self n⟩]
      rfl
    · have same : (h.virtualAddress / pageSize ≤ m ∧ m < n + 1) ↔
          (h.virtualAddress / pageSize ≤ m ∧ m < n) := and_congr_right fun _ => by omega
      simp only [same]
  · rintro loads t ⟨image, fills, seals⟩
    refine done t image fills ⟨seals.there, seals.bytes, fun n page found => ?_⟩
    have covered : (h.virtualAddress / pageSize ≤ n ∧ n < pageAfter h) ↔ Meets h n :=
      and_congr_right fun _ => Nat.lt_succ_iff
    rw [loaded_append, if_pos loads, lastMeeting_append, seals.right n page found]
    simp only [covered]

end SecondPass

section Whole

/-- The image of a program file that has been loaded. -/
def Imaged (active : Bool) (data : List UInt8) : SpaceImage → Prop :=
  Sealed data fun n => rights active (lastMeeting (segments data) n)

theorem translate_iff {image : SpaceImage} {right : Nat → Bool × Bool}
    (fills : Fills before managed live root room image t) (seals : Sealed data right image) {a : Nat}
    (inside : a < 2 ^ 39) : (translate t.paging (BitVec.ofNat 64 a)).isSome = true ↔
      ∃ h ∈ segments data, Meets h (a / pageSize) := by
  obtain ⟨hand, chain, shows, -⟩ := fills
  have place : (BitVec.ofNat 64 a).toNat = a := by
    rw [BitVec.toNat_ofNat]
    omega
  rw [shows.translate (user_toNat.mpr (by rw [place]; exact inside)), place, seals.there]

theorem load_fills {post : Post Loading Loaded} {image : SpaceImage} (patient : Patient setting)
    (fills : Fills before managed live root room image t) (none : ∀ n, image n = none)
    (error : ∀ text t, Fails before managed live root room setting data t → post.error text t)
    (refused : ¬Roomy setting.grants data → ∀ t, post.stopped .exhausted t)
    (ok : ∀ counts t image, Accepted data → Roomy setting.grants data →
      Fills before managed live root (room - framesNeeded data) image t →
      Imaged setting.noExecuteActive data image → counts.entry = entryPoint data → post.ok counts t) :
    Ends (Elf.load setting data) t post := by
  have failed : ∀ {image room' t}, ¬Accepted data → Roomy setting.grants data →
      Fills before managed live root room' image t → ∀ text, post.error text t :=
    fun refused roomy fills text => error text _ ⟨.inl refused, .inr roomy, _, fills.less⟩
  refine load_ends (fun hs => Partly before managed live root room setting data hs (Asked hs) 0)
    (fun hs _ t => (∀ h ∈ segments data, Valid data h) ∧ segments data ≠ [] ∧
      Roomy setting.grants data ∧
      ∃ image, Fills before managed live root (room - framesNeeded data) image t ∧
        Sealed data (fun n => rights setting.noExecuteActive (lastMeeting (loaded hs) n)) image)
    ?_ ?_ ?_ ?_ ?_ ?_ ?_ ?_
  · exact fun untabled => failed (fun accepted => untabled accepted.tabled)
      (not_tabled_roomy untabled) fills
  · refine ⟨image, fills, ⟨fun n => ?_, fun n page found => ?_, fun n page found => ?_⟩, .start,
      ∅, fun n => ?_, rfl, fun _ below => absurd below (Nat.not_lt_zero _)⟩
    rotate_right
    · exact iff_of_false (Finset.notMem_empty n) fun ⟨_, member, _⟩ => List.not_mem_nil member
    · rw [none n]
      exact iff_of_false (by decide) fun ⟨_, member, _⟩ => List.not_mem_nil member
    all_goals
      rw [none n] at found
      cases found
  · exact fun tabled hs h after progress t split partly =>
      loadSegment_fills patient tabled split partly error refused fun _ _ partly => partly
  · rintro tabled progress t ⟨image, fills, shaped, counts, tallied⟩ zero
    refine failed (fun accepted => accepted.some ?_) (tallied.roomy (tried_valid counts.valid)) fills
    rw [← List.length_eq_zero_iff, ← zero]
    exact counts.segments.symm
  · rintro tabled progress t ⟨image, fills, shaped, counts, tallied⟩ some'
    refine ⟨counts.valid, fun nothing => some' ?_, tallied.roomy (tried_valid counts.valid), image,
      fills, shaped.there, shaped.bytes, fun n page found => ?_⟩
    · rw [counts.segments, ← List.length_nil (α := ProgramHeader), ← nothing]
      rfl
    · obtain ⟨writes, runs⟩ := shaped.open' n page found
      rw [writes, runs]
      rfl
  · rintro tabled hs h after progress t split ⟨valid, some', roomy, image, fills, seals⟩
    exact sealPages_seals patient split valid fills seals fun t image fills seals =>
      ⟨valid, some', roomy, image, fills, seals⟩
  · rintro tabled progress t ⟨valid, some', roomy, image, fills, seals⟩ outside
    refine failed (fun accepted => ?_) roomy fills
    obtain ⟨h, member, meets⟩ := accepted.entry
    have page := (valid h member).pages_below (mem_segments.mp member).2 meets
    have small : entryPoint data < userAddressLimit := by
      unfold pageSize at page
      unfold userAddressLimit
      omega
    have found := (translate_iff fills seals (small.trans (by decide))).mpr ⟨h, member, meets⟩
    rcases outside with above | lost
    · exact Nat.lt_asymm small above
    · rw [Option.isNone_iff_eq_none] at lost
      rw [lost] at found
      cases found
  · rintro tabled progress t ⟨valid, some', roomy, image, fills, seals⟩ low there
    have entry := (translate_iff fills seals (lt_of_le_of_lt low (by decide))).mp there
    exact ok _ t image ⟨tabled, valid, some', entry⟩ roomy fills seals rfl

end Whole

section Fresh

variable {s s' : Paging} {hand chain : List Word}

theorem byteAt_shows {image : SpaceImage} {page : PageImage} {a : Word}
    (shows : Shows before s managed live hand chain root image) (inside : a < userSpaceEnd)
    (there : image (a.toNat / pageSize) = some page) :
    byteAt s a = some (page.bytes (a.toNat % pageSize)) := by
  have found := shows.translate inside
  rw [there, Option.isSome_some] at found
  obtain ⟨⟨physical, entries⟩, walked⟩ := Option.isSome_iff_exists.mp found
  have frame := walked
  rw [FiveAM.Memory.PageTables.translate, translateIn, shows.active] at frame
  have place := translateFrom_frame shows.sound (low_of_user inside) (.here 3 root) frame
  have backed := shows.reads inside
  rw [there] at backed
  rw [byteAt, walked, Option.map_some, place, (frameOf_offset _).1]
  exact congrArg some (backed.bytes _ (Nat.mod_lt _ (by decide)))

/-- A new space that has become the active one. -/
def fresh (s : Paging) (root : Word) : Loading := ⟨{ s with cr3 := root }, []⟩

def freshPost (s : Paging) (managed live : Finset Word) (chain : List Word) (root : Word)
    (setting : Setting) (data : List UInt8) : Post Loading Loaded where
  ok counts t := Accepted data ∧ Roomy setting.grants data ∧ counts.entry = entryPoint data ∧
    ∃ image, Fills s managed (insert root live) root (chain.tail.length - framesNeeded data) image t ∧
      Imaged setting.noExecuteActive data image
  error _ t := Fails s managed (insert root live) root chain.tail.length setting data t
  stopped why _ := why = .exhausted ∧ ¬Roomy setting.grants data

variable (data) in
theorem load_fresh (patient : Patient setting) (books : Books s managed live hand chain)
    (made : newSpace s = (some root, s')) :
    Ends (Elf.load setting data) (fresh s' root) (freshPost s managed live chain root setting data) := by
  have fills : Fills s managed (insert root live) root chain.tail.length (fun _ => none)
      (fresh s' root) := ⟨hand, chain.tail, newSpace_shows books made, Nat.le_refl _⟩
  exact load_fills patient fills (fun _ => rfl) (fun _ _ failed => failed)
    (fun narrow _ => ⟨rfl, narrow⟩)
    fun _ _ image accepted roomy fills imaged entry => ⟨accepted, roomy, entry, image, fills, imaged⟩

variable (data) in
theorem load_returns (patient : Patient setting) (books : Books s managed live hand chain)
    (made : newSpace s = (some root, s')) (accepted : Accepted data) (roomy : Roomy setting.grants data)
    (enough : framesNeeded data ≤ chain.tail.length) :
    ∃ counts t, Elf.load setting data (fresh s' root) = .returned (.ok counts) t := by
  have ends := load_fresh data patient books made
  unfold Ends at ends
  generalize Elf.load setting data (fresh s' root) = outcome at ends ⊢
  rcases outcome with ⟨text | counts, t⟩ | ⟨why, t⟩
  · obtain ⟨refused | short, -⟩ := ends
    · exact absurd accepted refused
    · exact absurd enough (Nat.not_le.mpr short)
  · exact ⟨counts, t, rfl⟩
  · exact absurd roomy ends.2

/-- The pages, the bytes and the entry of a program that has been loaded are those of its
file. -/
theorem loaded_image (patient : Patient setting) (books : Books s managed live hand chain)
    (made : newSpace s = (some root, s')) {counts : Loaded}
    (loads : Elf.load setting data (fresh s' root) = .returned (.ok counts) t) :
    (∀ a, a < userSpaceEnd → ((translate t.paging a).isSome = true ↔
      ∃ h ∈ segments data, ∃ b, h.virtualAddress ≤ b ∧ b < h.virtualAddress + h.memorySize ∧
        b / pageSize = a.toNat / pageSize)) ∧
    (∀ a, a < userSpaceEnd → (translate t.paging a).isSome = true →
      byteAt t.paging a = some (fileByte data a.toNat)) ∧
    counts.entry = entryPoint data ∧
    ∃ h ∈ segments data, ∃ b, h.virtualAddress ≤ b ∧ b < h.virtualAddress + h.memorySize ∧
      b / pageSize = counts.entry / pageSize := by
  have ends := load_fresh data patient books made
  unfold Ends at ends
  rw [loads] at ends
  obtain ⟨accepted, -, entry, image, ⟨hand', chain', shows, -⟩, imaged⟩ := ends
  have meets : ∀ n, (∃ h ∈ segments data, Meets h n) ↔ ∃ h ∈ segments data, ∃ b,
      h.virtualAddress ≤ b ∧ b < h.virtualAddress + h.memorySize ∧ b / pageSize = n := fun n =>
    exists_congr fun h => and_congr_right fun member => meets_iff (mem_segments.mp member).2 n
  refine ⟨fun a inside => ?_, fun a inside there => ?_, entry, ?_⟩
  · rw [shows.translate inside, imaged.there, meets]
  · rw [shows.translate inside] at there
    obtain ⟨page, found⟩ := Option.isSome_iff_exists.mp there
    rw [byteAt_shows shows inside found,
      imaged.bytes _ page found _ (Nat.mod_lt _ (by decide)), Nat.div_add_mod']
  · rw [entry, ← meets]
    exact accepted.entry

theorem booted_fresh {r : Word} {rest : List Word} (framed : ∀ f ∈ r :: rest, Framed f)
    (once : (r :: rest).Nodup) :
    ∃ s', newSpace (init statics (r :: rest).reverse) = (some r, s') ∧
      Books (init statics (r :: rest).reverse) (r :: rest).reverse.toFinset ∅ [] (r :: rest) := by
  have books : Books (init statics (r :: rest).reverse) (r :: rest).reverse.toFinset ∅ []
      (r :: rest).reverse.reverse :=
    init_books (fun f inside => framed f (List.mem_reverse.mp inside)) (List.nodup_reverse.mpr once)
  rw [List.reverse_reverse] at books
  obtain ⟨s', new, -, -⟩ := newSpace_made books
  exact ⟨s', new, books⟩

def fewFrames : List Word :=
  [0x101000, 0x102000, 0x103000, 0x104000, 0x105000, 0x106000, 0x107000, 0x108000, 0x109000, 0x10a000,
    0x10b000, 0x10c000, 0x10d000]

theorem fewFrames_fresh : ∃ s', newSpace (init statics fewFrames.reverse) = (some 0x101000, s') ∧
    Books (init statics fewFrames.reverse) fewFrames.reverse.toFinset ∅ [] fewFrames := by
  have all : (fewFrames.all fun f => decide (Framed f)) = true := by decide +kernel
  exact booted_fresh (fun f inside => of_decide_eq_true (List.all_eq_true.mp all f inside))
    (show fewFrames.Nodup from by decide +kernel)

/-- As much patience as any program file takes, and a heap that is never full. -/
def eager : Setting := ⟨true, 0, 0, 1, 2 ^ 19 + 1, fun _ => true⟩

theorem patient_eager : Patient eager := ⟨by decide, by decide⟩

def oneSegment : List UInt8 := fileOf 0x400000 [⟨ptLoad, 5, 0, 0x400000, 0, 4, 16, 0⟩]

theorem loaded_image_oneSegment : ∃ s s' counts t, newSpace s = (some 0x101000, s') ∧
    Elf.load eager oneSegment (fresh s' 0x101000) = .returned (.ok counts) t ∧
    byteAt t.paging 0x400001 = some 0x45 ∧ counts.entry = 0x400000 := by
  obtain ⟨s', made, books⟩ := fewFrames_fresh
  obtain ⟨counts, t, loads⟩ := load_returns oneSegment patient_eager books made
    (by decide +kernel) (fun _ _ => rfl) (by decide +kernel)
  obtain ⟨pages, bytes, entry, -⟩ := loaded_image patient_eager books made loads
  refine ⟨_, s', counts, t, made, loads, ?_, entry.trans (by decide +kernel)⟩
  have there : ∃ h ∈ segments oneSegment, Meets h 0x400 := by decide +kernel
  have mapped : (translate t.paging 0x400001).isSome = true := by
    rw [pages _ (by decide)]
    obtain ⟨h, member, meets⟩ := there
    exact ⟨h, member, (meets_iff (mem_segments.mp member).2 _).mp meets⟩
  rw [bytes _ (by decide) mapped]
  exact congrArg some (show fileByte oneSegment 0x400001 = 0x45 from by decide +kernel)

end Fresh

end FiveAM.Process.LoadedFile
