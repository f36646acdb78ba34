/- GID: FiveAM/Process/StackStores
   source: kernel/src/user.rs
   digest: The stores of the kernel into the stack page of a new program, done or stopped. -/

import FiveAM.Process.ExecFile
import FiveAM.Process.LoadedImage

set_option autoImplicit false
set_option relaxedAutoImplicit false

namespace FiveAM.Process.StackStores

open FiveAM.Process.TaskTable
open FiveAM.Process.Syscalls (storeBytes userStackTop)
open FiveAM.Process.Arguments (Argument Placed StringAt room strings_placed arguments_placed)
open FiveAM.Memory.Entries FiveAM.Memory.Frames FiveAM.Memory.PageTables
open FiveAM.Memory.UserBytes FiveAM.Memory.UserImage
open FiveAM.Lib.ByteMemory FiveAM.Lib.Programs FiveAM.Lib.Programs.Program
open FiveAM.Process.Elf FiveAM.Process.ElfRuns FiveAM.Process.LoadedImage FiveAM.Process.ExecFile

/-- The number of the page `map_stack` maps. -/
def stackPage : Nat := 0x10f

theorem firstPage_word : Arguments.firstPage = pageWord stackPage := by decide

/-- The stack page is open and has these bytes, and the other pages are as they were. -/
structure Stacked (base image : SpaceImage) (m : Bytes) : Prop where
  elsewhere : ∀ n, n ≠ stackPage → image n = base n
  page : ∃ page, image stackPage = some page ∧ page.writable = true ∧
    ∀ o < pageSize, page.bytes o = m (stackPage * pageSize + o)

def stops {α : Type} (why : Stop) : Post Loading α :=
  ⟨fun _ _ => False, fun _ _ => False, fun w _ => w = why⟩

variable {before : Paging} {managed live : Finset Word} {root : Word} {setting : Setting}
  {base image : SpaceImage} {t : Loading} {left : Nat} {m : Bytes}

section Rules

variable {α β : Type}

theorem stops_bind {x : Program Loading α} {f : α → Program Loading β} {why : Stop}
    (ends : Ends x t (stops why)) : Ends (x >>= f) t (stops why) :=
  .bind (ends.mono (fun _ _ none => none.elim) (fun _ _ none => none) fun _ _ same => same)

theorem stops_forEach {body : β → α → Program Loading β} {a : α} {rest : List α} {b : β} {why : Stop}
    (ends : Ends (body b a) t (stops why)) : Ends (forEach body (a :: rest) b) t (stops why) :=
  stops_bind ends

end Rules

section Stores

theorem store_stacked {post : Post Loading Unit} (patient : Patient setting)
    {address : Word} {byte : BitVec 8} (fills : Fills before managed live root left image t)
    (stacked : Stacked base image m) (number : address.toNat / pageSize = stackPage)
    (done : ∀ t image, Fills before managed live root left image t →
      Stacked base image (storeBytes m address [byte]) → post.ok () t) :
    Ends (store setting address byte) t post := by
  obtain ⟨elsewhere, page, there, open', bytes⟩ := stacked
  have inside : address < userSpaceEnd := by
    rw [user_toNat]
    unfold pageSize stackPage at number
    omega
  refine store_ends patient _ fills inside (number.symm ▸ there) open' fun t fills =>
    done t _ fills ⟨fun n other => ?_,
      page.put (address.toNat % pageSize) byte, by rw [number, Function.update_self], open',
      fun o low => ?_⟩
  · rw [number, Function.update_of_ne other]
    exact elsewhere n other
  · unfold storeBytes
    change Function.update page.bytes (address.toNat % pageSize) byte o = _
    have whole := Nat.div_add_mod' address.toNat pageSize
    rw [number] at whole
    by_cases same : o = address.toNat % pageSize
    · rw [same, Function.update_self, if_pos (by simp only [List.length_singleton]; omega),
        show stackPage * pageSize + address.toNat % pageSize - address.toNat = 0 by omega]
      rfl
    · rw [Function.update_of_ne same, if_neg (by simp only [List.length_singleton]; omega)]
      exact bytes o low

theorem storeAll_stacked {post : Post Loading Unit} (patient : Patient setting)
    {address : Word} {bytes : List (BitVec 8)} (fills : Fills before managed live root left image t)
    (stacked : Stacked base image m) (low : stackPage * pageSize ≤ address.toNat)
    (high : address.toNat + bytes.length ≤ (stackPage + 1) * pageSize)
    (done : ∀ t image, Fills before managed live root left image t →
      Stacked base image (storeBytes m address bytes) → post.ok () t) :
    Ends (storeAll setting address bytes) t post := by
  unfold storeAll
  refine .forEach (fun stored _ t => ∃ image, Fills before managed live root left image t ∧
    Stacked base image (storeBytes m address (bytes.take stored.length))) ⟨image, fills, ?_⟩ ?_ ?_
  · have nothing : storeBytes m address (bytes.take ([] : List (BitVec 8 × Nat)).length) = m := by
      funext x
      exact if_neg (by simp only [List.length_nil, List.take_zero]; omega)
    rwa [nothing]
  · rintro stored ⟨b, i⟩ after _ t split ⟨image, fills, stacked⟩
    have position : i = stored.length ∧ bytes[i]? = some b := by
      have get : bytes.zipIdx[stored.length]? = some (b, i) := by
        rw [split]
        simp
      rw [List.getElem?_zipIdx] at get
      obtain ⟨b', found, same⟩ := Option.map_eq_some_iff.mp get
      obtain ⟨rfl, rfl⟩ := Prod.mk.inj same
      rw [Nat.zero_add]
      exact ⟨rfl, found⟩
    obtain ⟨rfl, found⟩ := position
    have inside := (List.getElem?_eq_some_iff.mp found).1
    have limits : (stackPage + 1) * pageSize < 2 ^ 64 := by decide
    have place : (address + BitVec.ofNat 64 stored.length).toNat = address.toNat + stored.length := by
      rw [BitVec.toNat_add, BitVec.toNat_ofNat]
      omega
    refine store_stacked patient fills stacked ?_ fun t image fills stacked => ⟨image, fills, ?_⟩
    · rw [place]
      unfold stackPage pageSize at *
      omega
    · have next : storeBytes (storeBytes m address (bytes.take stored.length))
          (address + BitVec.ofNat 64 stored.length) [b] =
            storeBytes m address (bytes.take (stored ++ [(b, stored.length)]).length) := by
        funext x
        unfold storeBytes
        simp only [place, List.length_append, List.length_singleton, List.length_take]
        rw [Nat.min_eq_left (by omega), Nat.min_eq_left (by omega)]
        by_cases here : x = address.toNat + stored.length
        · rw [if_pos (by omega), if_pos (by omega), here, Nat.add_sub_cancel_left, Nat.sub_self,
            List.getD_eq_getElem?_getD, List.getD_eq_getElem?_getD, List.getElem?_take,
            if_pos (Nat.lt_succ_self _), found]
          rfl
        · rw [if_neg (by omega)]
          by_cases earlier : address.toNat ≤ x ∧ x < address.toNat + stored.length
          · rw [if_pos earlier, if_pos (by omega), List.getD_eq_getElem?_getD,
              List.getD_eq_getElem?_getD, List.getElem?_take, List.getElem?_take,
              if_pos (by omega), if_pos (by omega)]
          · rw [if_neg earlier, if_neg (by omega)]
      rwa [next] at stacked
  · rintro _ t ⟨image, fills, stacked⟩
    rw [List.length_zipIdx, List.take_length] at stacked
    exact done t image fills stacked

theorem writeWord_eq (m : Bytes) (a w : Word) :
    writeWord m a.toNat w = storeBytes m a (wordBytes w) := by
  funext x
  have length : (wordBytes w).length = 8 := by
    rw [wordBytes, List.length_map, List.length_range]
  unfold writeWord storeBytes
  rw [length]
  split_ifs with inside
  · rw [List.getD_eq_getElem?_getD, wordBytes, List.getElem?_map,
      List.getElem?_range (by omega)]
    rfl
  · rfl

end Stores

section Placing

variable {ss : List Argument}

theorem string_range {done rest : List Argument} {s : Argument} {m₁ : Bytes} {cursor : Word}
    {acc : List Word} (split : ss = done ++ s :: rest) (nonzero : ∀ s ∈ ss, 0 ∉ s)
    (short : room ss ≤ 3968)
    (folded : done.foldl Arguments.placeString (m, userStackTop, []) = (m₁, cursor, acc)) :
    stackPage * pageSize ≤ ((cursor - (BitVec.ofNat 64 s.length + 1)) &&& ~~~0x7).toNat ∧
      ((cursor - (BitVec.ofNat 64 s.length + 1)) &&& ~~~0x7).toNat + s.length <
        (stackPage + 1) * pageSize := by
  have top : userStackTop.toNat = (stackPage + 1) * pageSize := by decide
  have limit : userStackTop.toNat = 0x110000 := by decide
  have total : room ss = room (done ++ [s]) + room rest := by
    rw [split, List.append_cons]
    unfold room
    rw [List.map_append, List.sum_append]
  obtain ⟨m', low, as, run, near, strung, -⟩ := @strings_placed m userStackTop [] (done ++ [s])
    (fun x inside => nonzero x (by
      rw [split, List.append_cons]
      exact List.mem_append_left rest inside)) (by decide) (by omega)
  rw [List.foldl_append, folded, List.nil_append] at run
  obtain ⟨-, run⟩ := Prod.mk.inj run
  obtain ⟨rfl, rfl⟩ := Prod.mk.inj run
  have length := strung.strings.length_eq
  rw [List.length_append, List.length_append, List.length_singleton, List.length_singleton] at length
  have fits := strung.fits done.length _ s
    (by rw [← Nat.add_right_cancel length]; exact List.getElem?_concat_length) List.getElem?_concat_length
  refine ⟨?_, lt_of_lt_of_eq fits top⟩
  dsimp only at near
  unfold stackPage pageSize
  omega

theorem strings_stacked {post : Post Loading (Word × List Word)} (patient : Patient setting)
    (nonzero : ∀ s ∈ ss, 0 ∉ s) (short : room ss ≤ 3968)
    (fills : Fills before managed live root left image t) (stacked : Stacked base image m)
    (done : ∀ t image m₁ cursor acc, Fills before managed live root left image t →
      Stacked base image m₁ →
      ss.foldl Arguments.placeString (m, userStackTop, []) = (m₁, cursor, acc) →
      post.ok (cursor, acc) t) :
    Ends (forEach (placeString setting) ss (userStackTop, [])) t post := by
  refine .forEach (fun placed b t => ∃ image m₁, Fills before managed live root left image t ∧
    Stacked base image m₁ ∧
    placed.foldl Arguments.placeString (m, userStackTop, []) = (m₁, b.1, b.2))
    ⟨image, m, fills, stacked, rfl⟩ ?_ ?_
  · rintro placed s rest ⟨cursor, acc⟩ t split ⟨image, m₁, fills, stacked, folded⟩
    obtain ⟨low, high⟩ := string_range split nonzero short folded
    unfold placeString
    dsimp only
    generalize address : (cursor - (BitVec.ofNat 64 s.length + 1)) &&& ~~~0x7 = a at low high ⊢
    have limits : (stackPage + 1) * pageSize < 2 ^ 64 := by decide
    have last : (a + BitVec.ofNat 64 s.length).toNat = a.toNat + s.length := by
      rw [BitVec.toNat_add, BitVec.toNat_ofNat]
      omega
    refine .bind (storeAll_stacked patient fills stacked low (Nat.le_of_lt high)
      fun t image fills stacked => ?_)
    refine .bind (store_stacked patient fills stacked ?_ fun t image fills stacked =>
      .pure ⟨image, _, fills, stacked, ?_⟩)
    · rw [last]
      unfold stackPage pageSize at *
      omega
    · rw [List.foldl_append, folded]
      simp only [List.foldl_cons, List.foldl_nil, Arguments.placeString, address]
  · rintro ⟨cursor, acc⟩ t ⟨image, m₁, fills, stacked, folded⟩
    exact done t image m₁ cursor acc fills stacked folded

theorem placeArguments_stacked (post : Post Loading (Word × Word × Word)) (patient : Patient setting)
    (nonzero : ∀ s ∈ ss, 0 ∉ s) (short : room ss + 8 * ss.length ≤ 3968)
    (fills : Fills before managed live root left image t) (stacked : Stacked base image m)
    (done : ∀ t image m' stack argv as, Fills before managed live root left image t →
      Stacked base image m' → as.length = ss.length → Placed m' stack argv as ss →
      post.ok (stack, BitVec.ofNat 64 ss.length, argv) t) :
    Ends (placeArguments setting true userStackTop ss) t post := by
  obtain ⟨m', stack, argv, as, placed, number, shape⟩ := arguments_placed (m := m) nonzero short
  have top : userStackTop.toNat = (stackPage + 1) * pageSize := by decide
  have first : Arguments.firstPage.toNat = stackPage * pageSize := by decide
  have low := shape.mapped
  have below := shape.below
  have held := shape.held
  unfold placeArguments
  refine .bind (.request (fun _ => ?_) fun none => nomatch none)
  refine .bind (strings_stacked patient nonzero (by omega) fills stacked
    fun t image m₁ cursor acc fills stacked folded => ?_)
  unfold Arguments.placeArguments at placed
  simp only [folded] at placed
  obtain ⟨same, rest⟩ := Prod.mk.inj placed
  obtain ⟨stack', rest⟩ := Prod.mk.inj rest
  obtain ⟨count, argv'⟩ := Prod.mk.inj rest
  have length : acc.length = ss.length := by
    have limit : userStackTop.toNat = 0x110000 := by decide
    obtain ⟨_, _, _, run, -, strung, -⟩ := @strings_placed m userStackTop [] ss nonzero (by decide)
      (by omega)
    rw [folded] at run
    rw [(Prod.mk.inj (Prod.mk.inj run).2).2, List.nil_append]
    exact strung.strings.length_eq
  have limits : (stackPage + 1) * pageSize < 2 ^ 64 := by decide
  have place : ∀ k, k ≤ ss.length → (argv + BitVec.ofNat 64 (8 * k)).toNat = argv.toNat + 8 * k := by
    intro k few
    rw [BitVec.toNat_add, BitVec.toNat_ofNat]
    omega
  have word : ∀ w, (wordBytes w).length = 8 := fun w => by
    rw [wordBytes, List.length_map, List.length_range]
  dsimp only [Post.onValue]
  rw [argv'] at stack'
  rw [argv', stack', length]
  refine .bind (.forEach (fun written _ t => ∃ image, Fills before managed live root left image t ∧
    Stacked base image (writeWords m₁ argv.toNat (acc.take written.length)))
    ⟨image, fills, stacked⟩ ?_ ?_)
  · rintro written ⟨w, i⟩ after _ t split ⟨image, fills, stacked⟩
    have position : i = written.length ∧ acc[i]? = some w := by
      have get : acc.zipIdx[written.length]? = some (w, i) := by
        rw [split]
        simp
      rw [List.getElem?_zipIdx] at get
      obtain ⟨w', found, same⟩ := Option.map_eq_some_iff.mp get
      obtain ⟨rfl, rfl⟩ := Prod.mk.inj same
      rw [Nat.zero_add]
      exact ⟨rfl, found⟩
    obtain ⟨rfl, found⟩ := position
    have inside := (List.getElem?_eq_some_iff.mp found).1
    have where' := place written.length (by omega)
    refine storeAll_stacked patient fills stacked (by rw [where']; omega)
      (by rw [where', word]; omega) fun t image fills stacked => ⟨image, fills, ?_⟩
    rw [← writeWord_eq, where'] at stacked
    have next : acc.take (written ++ [(w, written.length)]).length =
        acc.take written.length ++ [w] := by
      rw [List.length_append, List.length_singleton, List.take_add_one, found]
      rfl
    rw [next, writeWords_append, List.length_take, Nat.min_eq_left (Nat.le_of_lt inside)]
    exact stacked
  · rintro _ t ⟨image, fills, stacked⟩
    rw [List.length_zipIdx, List.take_length] at stacked
    have where' := place ss.length (Nat.le_refl _)
    refine .bind (storeAll_stacked patient fills stacked (by rw [where']; omega)
      (by rw [where', word]; omega) fun t image fills stacked => ?_)
    rw [← writeWord_eq, where', ← length, ← writeWords_append, ← argv', same] at stacked
    exact .pure (done t image m' stack argv as fills stacked number shape)

theorem placeArguments_halts {page : PageImage} {s : Argument} (patient : Patient setting)
    (nonzero : ∀ x ∈ s :: ss, 0 ∉ x) (some' : s ≠ []) (short : room (s :: ss) ≤ 3968)
    (fills : Fills before managed live root left image t) (there : image stackPage = some page)
    (shut : page.writable = false) :
    Ends (placeArguments setting true userStackTop (s :: ss)) t (stops .halted) := by
  obtain ⟨low, high⟩ := @string_range (fun _ => 0) (s :: ss) [] ss s (fun _ => 0) userStackTop [] rfl
    nonzero short rfl
  unfold placeArguments
  refine .bind (.request (fun _ => ?_) fun none => nomatch none)
  refine stops_bind (stops_forEach ?_)
  unfold placeString
  dsimp only
  generalize (userStackTop - (BitVec.ofNat 64 s.length + 1)) &&& ~~~0x7 = a at low high ⊢
  refine stops_bind ?_
  obtain ⟨b, rest, rfl⟩ := List.exists_cons_of_ne_nil some'
  refine stops_forEach ?_
  obtain ⟨hand, chain, shows, -⟩ := fills
  have number : a.toNat / pageSize = stackPage := by
    rw [List.length_cons] at high
    unfold stackPage pageSize at *
    omega
  have inside : a < userSpaceEnd := by
    rw [user_toNat]
    unfold stackPage pageSize at *
    omega
  have halts := shows.store_halts inside (number.symm ▸ there) shut setting.top setting.limit b
    patient.attempts
  have start : a + BitVec.ofNat 64 0 = a := BitVec.add_zero a
  unfold Ends store
  dsimp only
  rw [start, halts]
  rfl

end Placing

section Mapping

/-- The stack page is there, or it is mapped and zeroed unless memory runs out. -/
theorem mapStack_ends {post : Post Loading Unit} (patient : Patient setting)
    (fills : Fills before managed live root left image t)
    (short : ∀ text t, Fills before managed live root 0 image t → left < 4 → post.error text t)
    (there : (image stackPage).isSome = true → post.ok () t)
    (mapped : image stackPage = none → ∀ t bytes, Fills before managed live root (left - 4)
      (Function.update image stackPage (some ⟨bytes, true, true⟩)) t → post.ok () t) :
    Ends (mapStack setting) t post := by
  have below : stackPage < 2 ^ 19 := by decide
  have walked : (translate t.paging (pageWord stackPage)).isSome = (image stackPage).isSome := by
    obtain ⟨hand, chain, shows, -⟩ := fills
    obtain ⟨inside, number⟩ := page_of_pageWord below
    rw [shows.translate inside, number]
  unfold mapStack
  rw [firstPage_word]
  refine .bindState ?_
  rcases present' : image stackPage with _ | page
  · rw [present', Option.isSome_none] at walked
    rw [if_pos (Option.isSome_eq_false_iff.mp walked)]
    refine mapFresh_bind below fills present' short fun t bytes fills => ?_
    exact zeroPage_ends patient below fills fun t zeros _ fills => mapped present' t zeros fills
  · rw [present', Option.isSome_some] at walked
    rw [if_neg (by rw [Option.isNone_iff_eq_none]; exact Option.isSome_iff_ne_none.mp walked)]
    exact .pure (there (by rw [present']; rfl))

end Mapping

end FiveAM.Process.StackStores
