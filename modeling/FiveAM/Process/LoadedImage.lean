/- GID: FiveAM/Process/LoadedImage
   source: kernel/src/elf.rs, kernel/src/memory.rs
   digest: The pages, bytes and flags a fresh space has after a program file is loaded into it. -/

import FiveAM.Memory.UserImage
import FiveAM.Process.ElfRuns

set_option autoImplicit false
set_option relaxedAutoImplicit false

namespace FiveAM.Process.LoadedImage

open FiveAM.Process.TaskTable (Word)
open FiveAM.Memory.Entries FiveAM.Memory.Frames FiveAM.Memory.PageTables FiveAM.Memory.Spaces
open FiveAM.Memory.Ownership FiveAM.Memory.UserBytes FiveAM.Memory.UserImage
open FiveAM.Lib.Checked FiveAM.Lib.Programs FiveAM.Lib.Programs.Program
open FiveAM.Process.Elf FiveAM.Process.ElfFiles FiveAM.Process.ElfRuns

/-- The space being filled shows an image, and so many frames are left at least. -/
def Fills (before : Paging) (managed live : Finset Word) (root : Word) (room : Nat)
    (image : SpaceImage) (t : Loading) : Prop :=
  ∃ hand chain, Shows before t.paging managed live hand chain root image ∧ room ≤ chain.length

/-- An image of the first pass: which pages are there, all of them open, and what is in them. -/
structure Shaped (there : Nat → Prop) (byte : Nat → BitVec 8) (image : SpaceImage) : Prop where
  there : ∀ n, (image n).isSome = true ↔ there n
  open' : ∀ n page, image n = some page → page.writable = true ∧ page.executable = true
  bytes : ∀ n page, image n = some page → ∀ o < pageSize, page.bytes o = byte (n * pageSize + o)

variable {before : Paging} {managed live : Finset Word} {root : Word} {setting : Setting}
  {data : List UInt8} {image : SpaceImage} {t : Loading} {room : Nat}

theorem Fills.less (fills : Fills before managed live root room image t) :
    Fills before managed live root 0 image t := by
  obtain ⟨hand, chain, shows, -⟩ := fills
  exact ⟨hand, chain, shows, Nat.zero_le _⟩

theorem Shaped.set {there there' : Nat → Prop} {byte byte' : Nat → BitVec 8} {page : PageImage}
    {n : Nat} (shaped : Shaped there byte image) (writable : page.writable = true)
    (executable : page.executable = true)
    (here : ∀ o < pageSize, page.bytes o = byte' (n * pageSize + o))
    (elsewhere : ∀ m, m ≠ n → ∀ o < pageSize, byte' (m * pageSize + o) = byte (m * pageSize + o))
    (more : ∀ m, there' m ↔ there m ∨ m = n) :
    Shaped there' byte' (Function.update image n (some page)) := by
  refine ⟨fun m => ?_, fun m page' found => ?_, fun m page' found o inside => ?_⟩
  · rw [more]
    by_cases same : m = n
    · rw [same, Function.update_self]
      exact iff_of_true rfl (.inr rfl)
    · rw [Function.update_of_ne same, shaped.there]
      exact ⟨.inl, fun either => either.resolve_right same⟩
  · by_cases same : m = n
    · rw [same, Function.update_self] at found
      rw [← Option.some.inj found]
      exact ⟨writable, executable⟩
    · rw [Function.update_of_ne same] at found
      exact shaped.open' m page' found
  · by_cases same : m = n
    · rw [same, Function.update_self] at found
      rw [← Option.some.inj found, same]
      exact here o inside
    · rw [Function.update_of_ne same] at found
      rw [elsewhere m same o inside]
      exact shaped.bytes m page' found o inside

section Stores

theorem allocate_bind {α : Type} {f : Option Word → Program Loading α} {post : Post Loading α}
    {found : Option Word} {s : Paging} (taken : t.paging.allocate = (found, s))
    (ends : Ends (f found) ⟨s, t.effects⟩ post) : Ends (allocate >>= f) t post := by
  refine .bind ?_
  unfold Ends at *
  unfold allocate
  rw [taken]
  exact ends

theorem mapPage_bind {α : Type} {f : Unit → Program Loading α} {post : Post Loading α}
    {page frame flags : Word} {r s : Paging} {effects : List Effect}
    (mapped : FiveAM.Memory.PageTables.mapPage r page frame flags = (.ok (), s))
    (ends : Ends (f ()) ⟨s, effects ++ [.mapped page]⟩ post) :
    Ends (Elf.mapPage page frame flags >>= f) ⟨r, effects⟩ post := by
  refine .bind ?_
  unfold Ends at *
  unfold Elf.mapPage act
  dsimp only
  rw [mapped]
  exact ends

theorem mapPage_fails {α : Type} {f : Unit → Program Loading α} {post : Post Loading α}
    {page frame flags : Word} {r s : Paging} {effects : List Effect} {text : String}
    (failed : FiveAM.Memory.PageTables.mapPage r page frame flags = (.error text, s))
    (error : post.error text ⟨s, effects ++ [.mapped page]⟩) :
    Ends (Elf.mapPage page frame flags >>= f) ⟨r, effects⟩ post := by
  refine .bind ?_
  unfold Ends Elf.mapPage act
  dsimp only
  rw [failed]
  exact error

theorem setFlags_ends {post : Post Loading Unit} {page flags : Word} {r s : Paging}
    {effects : List Effect}
    (changed : FiveAM.Memory.PageTables.setFlags r page flags = (.ok (), s))
    (ok : post.ok () ⟨s, effects ++ [.resealed page]⟩) :
    Ends (Elf.setFlags page flags) ⟨r, effects⟩ post := by
  unfold Ends Elf.setFlags act
  dsimp only
  rw [changed]
  exact ok

theorem user_of_page {n o : Nat} (below : n < 2 ^ 19) (inside : o < pageSize) :
    (pageWord n + BitVec.ofNat 64 o) < userSpaceEnd ∧
      (pageWord n + BitVec.ofNat 64 o).toNat = n * pageSize + o := by
  have place : (pageWord n + BitVec.ofNat 64 o).toNat = n * pageSize + o := by
    rw [BitVec.toNat_add, pageWord_toNat below, BitVec.toNat_ofNat]
    unfold pageSize at *
    omega
  refine ⟨user_toNat.mpr ?_, place⟩
  rw [place]
  unfold pageSize at *
  omega

theorem store_ends {post : Post Loading Unit} (patient : Patient setting) {address : Word}
    {byte : BitVec 8} (page : PageImage) (fills : Fills before managed live root room image t)
    (inside : address < userSpaceEnd) (there : image (address.toNat / pageSize) = some page)
    (open' : page.writable = true)
    (done : ∀ t, Fills before managed live root room (Function.update image
      (address.toNat / pageSize) (some (page.put (address.toNat % pageSize) byte))) t →
        post.ok () t) : Ends (store setting address byte) t post := by
  obtain ⟨hand, chain, shows, enough⟩ := fills
  obtain ⟨paging, stored, shows'⟩ := shows.store inside there open' setting.top setting.limit byte
  unfold Ends store
  rw [stored setting.attempts patient.attempts]
  exact done ⟨paging, t.effects ++ [.stored address]⟩ ⟨hand, chain, shows', enough⟩

theorem zeroPage_ends {post : Post Loading Unit} (patient : Patient setting) {n : Nat}
    {bytes : Nat → BitVec 8} (below : n < 2 ^ 19)
    (fills : Fills before managed live root room (Function.update image n (some ⟨bytes, true, true⟩)) t)
    (done : ∀ t bytes, (∀ o < pageSize, bytes o = 0) →
      Fills before managed live root room (Function.update image n (some ⟨bytes, true, true⟩)) t →
        post.ok () t) : Ends (zeroPage setting (pageWord n)) t post := by
  unfold zeroPage
  generalize ranged : List.range pageSize = items
  refine .forEach (fun zeroed _ t => ∃ bytes, (∀ o < zeroed.length, bytes o = 0) ∧
    Fills before managed live root room (Function.update image n (some ⟨bytes, true, true⟩)) t)
    ⟨bytes, by simp, fills⟩ ?_ ?_
  · rintro zeroed o after _ t split ⟨bytes, zero, fills⟩
    have position : o = zeroed.length ∧ o < pageSize := by
      have get : (List.range pageSize)[zeroed.length]? = some o := by
        rw [ranged, split]
        simp
      have bound := (List.getElem?_eq_some_iff.mp get).1
      rw [List.length_range] at bound
      rw [List.getElem?_range bound] at get
      exact ⟨(Option.some.inj get).symm, (Option.some.inj get) ▸ bound⟩
    obtain ⟨rfl, inside⟩ := position
    obtain ⟨user', place⟩ := user_of_page below inside
    have number : (n * pageSize + zeroed.length) / pageSize = n := by
      unfold pageSize at *
      omega
    have offset : (n * pageSize + zeroed.length) % pageSize = zeroed.length := by
      unfold pageSize at *
      omega
    refine store_ends patient ⟨bytes, true, true⟩ fills user' ?_ rfl fun t' fills' =>
      ⟨Function.update bytes zeroed.length 0, fun o small => ?_, ?_⟩
    · rw [place, number, Function.update_self]
    · rw [List.length_append, List.length_singleton] at small
      by_cases here : o = zeroed.length
      · rw [here, Function.update_self]
      · rw [Function.update_of_ne here]
        exact zero o (by omega)
    · rw [place, number, offset, Function.update_idem] at fills'
      exact fills'
  · rintro _ t ⟨bytes, zero, fills⟩
    rw [← ranged, List.length_range] at zero
    exact done t bytes zero fills

theorem page_of_pageWord {n : Nat} (below : n < 2 ^ 19) :
    pageWord n < userSpaceEnd ∧ (pageWord n).toNat / pageSize = n := by
  have place := pageWord_toNat below
  refine ⟨user_toNat.mpr ?_, ?_⟩
  · rw [place]
    unfold pageSize
    omega
  · rw [place]
    exact Nat.mul_div_cancel n (by decide)

/-- A page that is not there is mapped unless memory runs out. -/
theorem mapFresh_bind {α : Type} {rest : Program Loading α} {post : Post Loading α}
    {text : String} {n : Nat} (below : n < 2 ^ 19)
    (fills : Fills before managed live root room image t) (absent : image n = none)
    (short : ∀ text t, Fills before managed live root 0 image t → room < 4 → post.error text t)
    (done : ∀ t bytes, Fills before managed live root (room - 4)
      (Function.update image n (some ⟨bytes, true, true⟩)) t → Ends rest t post) :
    Ends (do
      let found ← allocate
      let frame ← demand found text
      Elf.mapPage (pageWord n) frame (user ||| writable)
      rest) t post := by
  obtain ⟨hand, chain, shows, enough⟩ := fills
  obtain ⟨user', number⟩ := page_of_pageWord below
  have none' : image ((pageWord n).toNat / pageSize) = none := by rw [number, absent]
  cases chain with
  | nil =>
      have none : t.paging.allocate = (none, t.paging) := shows.books.account.allocate_none
      refine allocate_bind none ?_
      refine .bind (.demand (fun _ found => ?_) fun _ => ?_)
      · exact absurd found (by simp)
      · exact short _ _ ⟨hand, [], shows, Nat.zero_le _⟩ (lt_of_le_of_lt enough (by decide))
  | cons frame rest =>
      obtain ⟨s1, taken, mapped⟩ := shows.map user' none'
      refine allocate_bind taken ?_
      refine .bind (.demand (fun found same => ?_) fun none => ?_)
      swap
      · exact absurd none (by simp)
      obtain rfl := Option.some.inj same
      rw [List.length_cons] at enough
      dsimp only [Post.onValue]
      rcases mapped with ⟨text, u, run, few, shows'⟩ | ⟨u, bytes, k, most, run, shows'⟩
      · exact mapPage_fails run (short _ _ ⟨_, _, shows', Nat.zero_le _⟩ (by omega))
      · refine mapPage_bind run ?_
        rw [number] at shows'
        have left : room - 4 ≤ (rest.drop k).length := by
          rw [List.length_drop]
          omega
        have fills : Fills before managed live root (room - 4)
            (Function.update image n (some ⟨bytes, true, true⟩))
            ⟨u, t.effects ++ [.mapped (pageWord n)]⟩ := ⟨_, _, shows', left⟩
        exact done _ _ fills

/-- One page of a segment: it is there already, or it is mapped and zeroed unless memory runs
out. -/
theorem backPage_ends {post : Post Loading Progress} {progress : Progress} {n : Nat}
    {there : Nat → Prop} {byte : Nat → BitVec 8} (patient : Patient setting) (below : n < 2 ^ 19)
    (fills : Fills before managed live root room image t) (shaped : Shaped there byte image)
    (empty : ¬there n → ∀ o < pageSize, byte (n * pageSize + o) = 0)
    (small : progress.bytesZeroed + pageSize < 2 ^ 64)
    (short : ∀ text t image, Fills before managed live root 0 image t → room < 4 →
      post.error text t)
    (refused : ¬there n → setting.grants progress.pages.length = false →
      ∀ t, post.stopped .exhausted t)
    (done : ∀ t image progress', Fills before managed live root (room - 4) image t →
      Shaped (fun m => there m ∨ m = n) byte image →
      (there n ∧ progress' = progress) ∨
        (¬there n ∧ setting.grants progress.pages.length = true ∧ progress' =
          { progress with bytesZeroed := progress.bytesZeroed + pageSize,
                          pages := progress.pages ++ [pageWord n] }) →
      post.ok progress' t) : Ends (backPage setting (pageWord n) progress) t post := by
  obtain ⟨user', number⟩ := page_of_pageWord below
  have walked : (translate t.paging (pageWord n)).isSome = (image n).isSome := by
    obtain ⟨hand, chain, shows, -⟩ := fills
    rw [shows.translate user', number]
  unfold backPage
  refine .bindState ?_
  rcases present' : image n with _ | page
  · rw [present', Option.isSome_none] at walked
    have absent : ¬there n := fun inside => by
      rw [← shaped.there, present'] at inside
      exact absurd inside (by decide)
    rw [if_pos (Option.isSome_eq_false_iff.mp walked)]
    refine mapFresh_bind below fills present' (fun text t => short text t image)
      fun t bytes fills => .bind (zeroPage_ends patient below fills fun t zeros zero fills => ?_)
    refine .bind (.check (fit_eq small) (.bind (.request (fun granted => ?_) fun full =>
      refused absent full t)))
    refine .pure (done t _ _ fills ?_ (.inr ⟨absent, granted, rfl⟩))
    exact shaped.set rfl rfl
      (fun o inside => (zero o inside).trans (empty absent o inside).symm)
      (fun _ _ _ _ => rfl) fun _ => Iff.rfl
  · rw [present', Option.isSome_some] at walked
    have already : there n := by
      rw [← shaped.there, present']
      rfl
    obtain ⟨hand, chain, shows, enough⟩ := fills
    rw [if_neg (by rw [Option.isNone_iff_eq_none]; exact Option.isSome_iff_ne_none.mp walked)]
    refine .pure (done t image progress ⟨hand, chain, shows, by omega⟩ ?_ (.inl ⟨already, rfl⟩))
    refine ⟨fun m => (shaped.there m).trans ⟨.inl, fun either => ?_⟩, shaped.open', shaped.bytes⟩
    exact either.elim id fun same => same ▸ already

def overlay (source : List UInt8) (start count : Nat) (byte : Nat → BitVec 8) (a : Nat) : BitVec 8 :=
  if start ≤ a ∧ a < start + count then (source.getD (a - start) 0).toBitVec else byte a

theorem copyIn_ends {post : Post Loading Unit} {source : List UInt8} {start : Nat}
    {there : Nat → Prop} {byte : Nat → BitVec 8} (patient : Patient setting)
    (below : start + source.length ≤ userAddressLimit)
    (fills : Fills before managed live root room image t) (shaped : Shaped there byte image)
    (pages : ∀ a, start ≤ a → a < start + source.length → there (a / pageSize))
    (done : ∀ t image, Fills before managed live root room image t →
      Shaped there (overlay source start source.length byte) image → post.ok () t) :
    Ends (copyIn setting source (BitVec.ofNat 64 start)) t post := by
  unfold userAddressLimit at below
  unfold copyIn
  refine .forEach (fun copied _ t => ∃ image, Fills before managed live root room image t ∧
    Shaped there (overlay source start copied.length byte) image) ⟨image, fills, ?_⟩ ?_ ?_
  · have nothing : overlay source start ([] : List (UInt8 × Nat)).length byte = byte := by
      funext a
      exact if_neg (by rw [List.length_nil]; omega)
    rwa [nothing]
  · rintro copied ⟨b, i⟩ after _ t split ⟨image, fills, shaped⟩
    have position : i = copied.length ∧ source[i]? = some b := by
      have get : source.zipIdx[copied.length]? = some (b, i) := by
        rw [split]
        simp
      rw [List.getElem?_zipIdx] at get
      obtain ⟨b', found, same⟩ := Option.map_eq_some_iff.mp get
      obtain ⟨rfl, rfl⟩ := Prod.mk.inj same
      rw [Nat.zero_add]
      exact ⟨rfl, found⟩
    obtain ⟨rfl, found⟩ := position
    have inside := (List.getElem?_eq_some_iff.mp found).1
    have place : (BitVec.ofNat 64 start + BitVec.ofNat 64 copied.length).toNat =
        start + copied.length := by
      rw [BitVec.toNat_add, BitVec.toNat_ofNat, BitVec.toNat_ofNat]
      omega
    have page := pages (start + copied.length) (by omega) (by omega)
    obtain ⟨pg, present'⟩ := Option.isSome_iff_exists.mp ((shaped.there _).mpr page)
    obtain ⟨open', runs⟩ := shaped.open' _ pg present'
    have next : ∀ a, overlay source start (copied.length + 1) byte a =
        if a = start + copied.length then b.toBitVec
        else overlay source start copied.length byte a := by
      intro a
      unfold overlay
      split_ifs with one two three
      · rw [two, Nat.add_sub_cancel_left, List.getD_eq_getElem?_getD, found, Option.getD_some]
      · rfl
      · omega
      · omega
      · omega
      · rfl
    refine store_ends patient _ fills (user_toNat.mpr (by rw [place]; omega))
      (by rw [place, present']) open' fun t' fills' => ⟨_, fills', ?_⟩
    rw [place, List.length_append, List.length_singleton]
    refine shaped.set open' runs (fun o within => ?_) (fun m other o within => ?_) fun m => ?_
    · rw [next]
      change Function.update pg.bytes ((start + copied.length) % pageSize) b.toBitVec o = _
      have whole := Nat.div_add_mod (start + copied.length) pageSize
      by_cases same : o = (start + copied.length) % pageSize
      · rw [same, Function.update_self, if_pos (by rw [Nat.mul_comm]; exact whole)]
      · rw [Function.update_of_ne same, if_neg]
        · exact shaped.bytes _ pg present' o within
        · intro equal
          rw [Nat.mul_comm] at equal
          omega
    · rw [next, if_neg]
      intro equal
      refine other ?_
      rw [← equal, Nat.mul_comm, Nat.mul_add_div (by decide), Nat.div_eq_of_lt within, Nat.add_zero]
    · exact ⟨.inl, fun either => either.elim id fun same => same ▸ page⟩
  · rintro _ t ⟨image, fills, shaped⟩
    rw [List.length_zipIdx] at shaped
    exact done t image fills shaped

end Stores

section Bytes

variable {hs : List ProgramHeader} {h : ProgramHeader}

theorem meets_of_gives (valid : Valid data h) (loads : Loads h) {a : Nat} (gives : Gives h a) :
    Meets h (a / pageSize) := by
  have larger := valid.larger
  obtain ⟨low, high⟩ := gives
  exact (meets_iff loads _).mpr ⟨a, low, by omega, rfl⟩

theorem byteFrom_outside (valid : ∀ h ∈ loaded hs, Valid data h) {n : Nat}
    (outside : ¬∃ h ∈ loaded hs, Meets h n) : ∀ o < pageSize,
      byteFrom data (loaded hs) (n * pageSize + o) = 0 := by
  intro o inside
  have number : (n * pageSize + o) / pageSize = n := by
    unfold pageSize at *
    omega
  have none : (loaded hs).filter (fun h => Gives h (n * pageSize + o)) = [] := by
    rw [List.filter_eq_nil_iff]
    intro h member gives
    have meets := meets_of_gives (valid h member) (mem_loaded.mp member).2
      (of_decide_eq_true gives)
    rw [number] at meets
    exact outside ⟨h, member, meets⟩
  rw [byteFrom, none]
  rfl

theorem source_getD (valid : Valid data h) {i : Nat} (inside : i < h.fileSize) :
    (source data h).getD i 0 = data.getD (h.offset + i) 0 := by
  have whole := valid.inside
  have length := source_length valid
  rw [List.getD_eq_getElem?_getD, List.getD_eq_getElem?_getD,
    List.getElem?_eq_getElem (show i < (source data h).length by omega),
    List.getElem?_eq_getElem (show h.offset + i < data.length by omega)]
  unfold source
  rw [Option.getD_some, Option.getD_some, List.getElem_drop, List.getElem_take]

private theorem getLast?_filter_append {α : Type} (p : α → Bool) (xs : List α) (x : α) :
    ((xs ++ [x]).filter p).getLast? = if p x = true then some x else (xs.filter p).getLast? := by
  rw [List.filter_append]
  by_cases holds : p x = true
  · rw [List.filter_cons_of_pos holds, if_pos holds, List.filter_nil, List.getLast?_concat]
  · rw [List.filter_cons_of_neg holds, if_neg holds, List.filter_nil, List.append_nil]

theorem byteFrom_append (valid : Valid data h) (hs : List ProgramHeader) :
    byteFrom data (hs ++ [h]) =
      overlay (source data h) h.virtualAddress (source data h).length (byteFrom data hs) := by
  funext a
  have last := getLast?_filter_append (fun h => decide (Gives h a)) hs h
  rw [byteFrom, last, source_length valid]
  by_cases gives : Gives h a
  · obtain ⟨low, high⟩ := gives
    rw [if_pos (decide_eq_true ⟨low, high⟩), overlay, if_pos ⟨low, high⟩]
    exact congrArg UInt8.toBitVec (source_getD valid (by omega)).symm
  · rw [if_neg (by simpa using gives), overlay]
    exact (if_neg gives).symm

theorem lastMeeting_append (hs : List ProgramHeader) (h : ProgramHeader) (n : Nat) :
    lastMeeting (hs ++ [h]) n = if Meets h n then some h else lastMeeting hs n := by
  have last := getLast?_filter_append (fun h => decide (Meets h n)) hs h
  rw [lastMeeting, last]
  simp only [decide_eq_true_eq]
  rfl

end Bytes

section Flags

variable {flags : Nat} {active : Bool}

theorem frameOf_pageFlags : frameOf (pageFlags active flags) = 0 := by
  unfold pageFlags
  cases active <;> split_ifs <;> decide

theorem pageFlags_user : has (pageFlags active flags) user = true := by
  unfold pageFlags
  cases active <;> split_ifs <;> decide

theorem pageFlags_cow : has (pageFlags active flags) cow = false := by
  unfold pageFlags
  cases active <;> split_ifs <;> decide

theorem pageFlags_writable :
    has (pageFlags active flags) writable = decide (flags &&& pfW ≠ 0) := by
  unfold pageFlags
  by_cases writes : flags &&& pfW ≠ 0
  · rw [if_pos writes, decide_eq_true writes]
    split_ifs <;> decide
  · rw [if_neg writes, decide_eq_false writes]
    split_ifs <;> decide

theorem pageFlags_noExecute :
    has (pageFlags active flags) noExecute = (decide (flags &&& pfX = 0) && active) := by
  unfold pageFlags
  by_cases sealed : flags &&& pfX = 0 ∧ active = true
  · rw [if_pos sealed, decide_eq_true sealed.1, sealed.2]
    split_ifs <;> decide
  · have shut : (decide (flags &&& pfX = 0) && active) = false := by
      rw [Bool.and_eq_false_iff, decide_eq_false_iff_not, ← Bool.not_eq_true active]
      exact not_and_or.mp sealed
    rw [if_neg sealed, shut]
    split_ifs <;> decide

end Flags

end FiveAM.Process.LoadedImage
