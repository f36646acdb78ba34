/- GID: FiveAM/Process/ExecRuns
   source: kernel/src/syscall.rs, kernel/src/user.rs, kernel/src/elf.rs, kernel/src/fat.rs
   digest: How `exec` of a program file ends: a failure that changes nothing, the new program, or a halt. -/

import FiveAM.Fat.Image
import FiveAM.Process.LoadedFile
import FiveAM.Process.StackStores

set_option autoImplicit false
set_option relaxedAutoImplicit false

namespace FiveAM.Process.ExecRuns

open FiveAM.Process.TaskTable FiveAM.Process.Syscalls
open FiveAM.Process.Machine (Kernel readFrame)
open FiveAM.Process.Lifecycle (userFrame)
open FiveAM.Process.FrameMemory
open FiveAM.Process.Arguments (Argument Placed room gather gather_spec arguments_short exec_starts)
open FiveAM.Lib.ByteRegions (Store)
open FiveAM.Lib.Requests FiveAM.Lib.Requests.Asking
open FiveAM.Memory.Entries FiveAM.Memory.Frames FiveAM.Memory.PageTables FiveAM.Memory.Ownership
open FiveAM.Memory.Contents FiveAM.Memory.Spaces FiveAM.Memory.Boot FiveAM.Memory.Teardown
open FiveAM.Memory.UserBytes FiveAM.Memory.UserImage
open FiveAM.Lib.ByteMemory FiveAM.Lib.Splitting FiveAM.Lib.Programs FiveAM.Lib.Programs.Program
open FiveAM.Process.Elf FiveAM.Process.ElfFiles FiveAM.Process.ElfRuns FiveAM.Process.LoadedImage
open FiveAM.Process.LoadedFile FiveAM.Process.StackStores FiveAM.Process.ExecFile

variable {s s' : Paging} {managed live : Finset Word} {hand chain : List Word} {root : Word}
  {setting : Setting} {data : List UInt8} {t : Loading} {arguments : List Argument}

section Endings

/-- The active space and all user pages are as they were. -/
structure Unchanged (live : Finset Word) (s s' : Paging) : Prop where
  active : s'.cr3 = s.cr3
  pages : ∀ r ∈ live, ∀ p, leafAt s'.words r p = leafAt s.words r p ∧ contents s' r p = contents s r p

/-- The new program is in its space, and its arguments are on its stack. -/
structure Entered (data : List UInt8) (arguments : List Argument) (root entry stack argc argv : Word)
    (s : Paging) : Prop where
  active : s.cr3 = root
  nonzero : root ≠ 0
  entry : entry = BitVec.ofNat 64 (entryPoint data)
  count : argc = BitVec.ofNat 64 arguments.length
  placed : ∃ addresses, addresses.length = arguments.length ∧
    Placed (userBytes s) stack argv addresses arguments
  loaded : ∀ a, a < userSpaceEnd → a.toNat / pageSize ≠ stackPage →
    (∃ h ∈ segments data, Meets h (a.toNat / pageSize)) → byteAt s a = some (fileByte data a.toNat)

/-- The last segment on the stack page asks for no writing. -/
def StackSealed (data : List UInt8) : Prop :=
  ∃ last, lastMeeting (segments data) stackPage = some last ∧ ¬Writes last

/-- How the replacement ends, for which files and with how much room on the heap. -/
def Ended (live : Finset Word) (s : Paging) (setting : Setting) (granted : Bool) (data : List UInt8)
    (arguments : List Argument) : Replaced → Prop
  | .failed s' => Unchanged live s s' ∧ ¬Accepted data ∧ Roomy setting.grants data
  | .entered root entry stack argc argv s' =>
      Entered data arguments root entry stack argc argv s' ∧ ¬StackSealed data ∧
        Roomy setting.grants data ∧ granted = true
  | .stopped .halted => Accepted data ∧ StackSealed data
  | .stopped .exhausted =>
      ¬Roomy setting.grants data ∨ Accepted data ∧ granted = false
  | .stopped _ => False

theorem given_up {image : SpaceImage} {left : Nat} {old : Word} (outside : root ∉ live)
    (fills : Fills s managed (insert root live) root left image t) (same : old = s.cr3) :
    Unchanged live s (destroy { t.paging with cr3 := old } root) := by
  obtain ⟨hand', chain', shows, -⟩ := fills
  have books : Books { t.paging with cr3 := old } managed (insert root live) hand' chain' :=
    shows.books.congr rfl rfl rfl rfl
  have member := Finset.mem_insert_self root live
  obtain ⟨freed, -, frees, -⟩ := destroy_spec books member
  refine ⟨frees.cr3.trans same, fun r inside p => ?_⟩
  have apart : r ≠ root := fun equal => outside (equal ▸ inside)
  have other : r ∈ (insert root live).erase root :=
    Finset.mem_erase.mpr ⟨apart, Finset.mem_insert_of_mem inside⟩
  obtain ⟨leaf, held, -⟩ := destroy_others books member r other p
  obtain ⟨leaf', held'⟩ := shows.others r (Finset.mem_insert_of_mem inside) apart p
  exact ⟨leaf.trans leaf', held.trans held'⟩

end Endings

section Replacing

theorem stackPage_mapped (post : Post Loading Unit) {image : SpaceImage} {room' : Nat} {active : Bool}
    (patient : Patient setting) (fills : Fills s managed live root room' image t) (enough : 4 ≤ room')
    (imaged : Imaged active data image)
    (done : ∀ t image' page, Fills s managed live root 0 image' t →
      (∀ n, n ≠ stackPage → image' n = image n) → image' stackPage = some page →
      (page.writable = true ↔ ¬StackSealed data) → post.ok () t) :
    Ends (mapStack setting) t post := by
  refine mapStack_ends patient fills (fun _ _ _ few => absurd few (Nat.not_lt.mpr enough))
    (fun there => ?_) fun none t bytes fills => ?_
  · obtain ⟨page, found⟩ := Option.isSome_iff_exists.mp there
    obtain ⟨h, member, meets⟩ := (imaged.there stackPage).mp there
    have right := imaged.right stackPage page found
    refine done t image page fills.less (fun _ _ => rfl) found ?_
    rcases asked : lastMeeting (segments data) stackPage with _ | last
    · unfold lastMeeting at asked
      rw [List.getLast?_eq_none_iff, List.filter_eq_nil_iff] at asked
      exact absurd (decide_eq_true meets) (asked h member)
    · rw [asked] at right
      rw [(Prod.mk.inj right).1, decide_eq_true_iff]
      constructor
      · rintro writes ⟨last', found', shut⟩
        rw [asked] at found'
        exact shut (Option.some.inj found' ▸ writes)
      · exact fun open' => by_contra fun shut => open' ⟨last, asked, shut⟩
  · refine done t _ ⟨bytes, true, true⟩ fills.less (fun n other => Function.update_of_ne other _ _)
      (Function.update_self _ _ _) (iff_of_true rfl ?_)
    rintro ⟨last, asked, -⟩
    have member := List.mem_of_getLast? asked
    rw [List.mem_filter, decide_eq_true_iff] at member
    have there := (imaged.there stackPage).mpr ⟨last, member⟩
    rw [none] at there
    cases there

theorem userBytes_shows {image : SpaceImage} {page : PageImage} {a : Nat}
    (shows : Shows s t.paging managed live hand chain root image) (inside : a < 2 ^ 39)
    (there : image (a / pageSize) = some page) :
    userBytes t.paging a = page.bytes (a % pageSize) := by
  have place : (BitVec.ofNat 64 a).toNat = a := by
    rw [BitVec.toNat_ofNat]
    omega
  unfold userBytes
  rw [byteAt_shows shows (user_toNat.mpr (by rw [place]; exact inside)) (by rw [place]; exact there),
    place, Option.getD_some]

theorem framesTried_eq (accepted : Accepted data) : framesTried data = framesNeeded data := by
  rw [framesTried, tried_valid accepted.valid, framesNeeded]

/-- Arguments placed on the stack page of an address space that shows the image of a file. -/
theorem entered_of_placed {active : Bool} {base image image' : SpaceImage} {m : Bytes}
    {entry : Nat} {stack argv : Word} {as : List Word}
    (fills : Fills s managed live root 0 image' t) (nonzero : root ≠ 0)
    (imaged : Imaged active data base) (elsewhere : ∀ n, n ≠ stackPage → image n = base n)
    (stacked : Stacked image image' m) (number : as.length = arguments.length)
    (shape : Placed m stack argv as arguments) (here : entry = entryPoint data) :
    Entered data arguments root (BitVec.ofNat 64 entry) stack (BitVec.ofNat 64 arguments.length) argv
      t.paging := by
  obtain ⟨hand', chain', shows, -⟩ := fills
  obtain ⟨elsewhere', page, there, -, bytes⟩ := stacked
  refine ⟨shows.active, nonzero, by rw [here], rfl, ⟨as, number, shape.congr fun x low high => ?_⟩,
    fun a inside off asked => ?_⟩
  · have first' : Arguments.firstPage.toNat = stackPage * pageSize := by decide
    have top : userStackTop.toNat = (stackPage + 1) * pageSize := by decide
    have on : x / pageSize = stackPage := by
      unfold stackPage pageSize at *
      omega
    rw [userBytes_shows shows (by unfold stackPage pageSize at *; omega) (on.symm ▸ there),
      bytes _ (Nat.mod_lt _ (by decide)), ← on, Nat.div_add_mod']
  · obtain ⟨page, found⟩ := Option.isSome_iff_exists.mp ((imaged.there _).mpr asked)
    have same : image' (a.toNat / pageSize) = some page := by
      rw [elsewhere' _ off, elsewhere _ off, found]
    rw [byteAt_shows shows inside same, imaged.bytes _ page found _ (Nat.mod_lt _ (by decide)),
      Nat.div_add_mod']

/-- How the placing ends on a stack page that is there, open or sealed. -/
theorem placeArguments_ended {active : Bool} {base image : SpaceImage} {page : PageImage} {entry : Nat}
    {first : Argument} {rest : List Argument} (patient : Patient setting)
    (nonzero : ∀ x ∈ first :: rest, 0 ∉ x) (some' : first ≠ [])
    (short : room (first :: rest) + 8 * (first :: rest).length ≤ 3968)
    (fills : Fills s managed live root 0 image t) (fresh : root ≠ 0)
    (imaged : Imaged active data base) (elsewhere : ∀ n, n ≠ stackPage → image n = base n)
    (there : image stackPage = some page) (open' : page.writable = true ↔ ¬StackSealed data)
    (here : entry = entryPoint data) :
    Ends (placeArguments setting true userStackTop (first :: rest)) t
      ⟨fun placed t => Entered data (first :: rest) root (BitVec.ofNat 64 entry) placed.1 placed.2.1
          placed.2.2 t.paging ∧ ¬StackSealed data,
        fun _ _ => False, fun why _ => why = .halted ∧ StackSealed data⟩ := by
  by_cases shut : StackSealed data
  · have closed : page.writable = false := by
      rw [← Bool.not_eq_true]
      exact fun writable => open'.mp writable shut
    exact (placeArguments_halts patient nonzero some' (by omega) fills there closed).mono
      (fun _ _ no => no.elim) (fun _ _ no => no.elim) fun _ _ halted => ⟨halted, shut⟩
  · have stacked : Stacked image image fun a => page.bytes (a % pageSize) := by
      refine ⟨fun _ _ => rfl, page, there, open'.mpr shut, fun o low => ?_⟩
      rw [Nat.mul_comm, Nat.mul_add_mod, Nat.mod_eq_of_lt low]
    exact placeArguments_stacked _ patient nonzero short fills stacked
      fun t image' m stack argv as fills stacked number shape =>
        ⟨entered_of_placed fills fresh imaged elsewhere stacked number shape here, shut⟩

theorem replace_ended {granted : Bool} {first : Argument} {rest : List Argument} (patient : Patient setting)
    (books : Books s managed live hand chain) (member : s.cr3 ∈ live)
    (nonzero : ∀ x ∈ first :: rest, 0 ∉ x) (some' : first ≠ [])
    (short : room (first :: rest) + 8 * (first :: rest).length ≤ 3968)
    (enough : framesTried data + 5 ≤ chain.length) :
    Ended live s setting granted data (first :: rest)
      (replace setting granted data (first :: rest) s) := by
  cases chain with
  | nil => exact absurd enough (by simp)
  | cons root chain =>
      obtain ⟨s₁, new, -, made⟩ := newSpace_made books
      have outside := made.outside
      rw [List.length_cons] at enough
      have loads := load_fresh data patient books new
      unfold replace
      rw [new]
      unfold Ends fresh at loads
      dsimp only
      generalize Elf.load setting data ⟨{ s₁ with cr3 := root }, []⟩ = outcome at loads ⊢
      rcases outcome with ⟨text | counts, t⟩ | ⟨why, t⟩
      · obtain ⟨refused, narrow, image, fills⟩ := loads
        rw [List.tail_cons] at refused narrow
        refine ⟨given_up outside fills made.cr3, fun accepted => ?_, narrow.resolve_left (by omega)⟩
        have same := framesTried_eq accepted
        exact refused.elim (fun refused => refused accepted) (by omega)
      swap
      · obtain ⟨rfl, narrow⟩ := loads
        exact .inl narrow
      obtain ⟨accepted, roomy, entry, image, fills, imaged⟩ := loads
      have same := framesTried_eq accepted
      rw [List.tail_cons] at fills
      have maps := stackPage_mapped ⟨fun _ t => ∃ image' page,
        Fills s managed (insert root live) root 0 image' t ∧
        (∀ n, n ≠ stackPage → image' n = image n) ∧ image' stackPage = some page ∧
        (page.writable = true ↔ ¬StackSealed data), fun _ _ => False, fun _ _ => False⟩
        patient fills (by omega) imaged
        fun t image' page fills elsewhere there sealed' => ⟨image', page, fills, elsewhere, there, sealed'⟩
      unfold Ends at maps
      dsimp only
      generalize mapStack setting t = outcome at maps ⊢
      rcases outcome with ⟨text | _, t⟩ | ⟨why, t⟩
      · exact maps.elim
      swap
      · exact maps.elim
      obtain ⟨image', page, ⟨hand', chain', shows, -⟩, elsewhere, there, sealed'⟩ := maps
      have apart : s₁.cr3 ≠ root := fun same => outside (same ▸ made.cr3 ▸ member)
      have member' : s₁.cr3 ∈ insert root live := Finset.mem_insert_of_mem (made.cr3.symm ▸ member)
      obtain ⟨freed, shows'⟩ := shows.destroy member' apart
      have fills' : Fills s managed ((insert root live).erase s₁.cr3) root 0 image'
          { t with paging := destroy t.paging s₁.cr3 } := ⟨hand', _, shows', Nat.zero_le _⟩
      have patient' : Patient { setting with top := userStackTop, limit := userStackLimit } :=
        ⟨patient.passes, patient.attempts⟩
      dsimp only
      cases granted with
      | false =>
          unfold placeArguments
          exact .inr ⟨accepted, rfl⟩
      | true =>
      have places := placeArguments_ended patient' nonzero some' short fills' books.account.linked.2.1
        imaged elsewhere there sealed' entry
      unfold Ends at places
      generalize placeArguments _ true userStackTop (first :: rest) _ = outcome at places ⊢
      rcases outcome with ⟨text | ⟨stack, argc, argv⟩, t⟩ | ⟨why, t⟩
      · exact places.elim
      · exact ⟨places.1, places.2, roomy, rfl⟩
      · obtain ⟨rfl, shut⟩ := places
        exact ⟨accepted, shut⟩

end Replacing

section Calls

variable {k : Kernel} {env : Surroundings} {present : Bool} {disk : Store}
  {heap : ExecFile.Request → Bool} {blob length count context : Word}

/-- The call has failed and changed nothing, or the task returns into the new program with its
arguments. -/
def Fine (k : Kernel) (env : Surroundings) (present : Bool) (disk : Store)
    (blob length count context : Word) (live : Finset Word) (s : Paging) : Called → Prop
  | .answered answer k' s' =>
      (answer = Pipes.failure ∧ k' = k ∧ Unchanged live s s') ∨
        answer = 0 ∧ ∃ arguments data entry stack argc argv,
          (named k env present disk blob length count).result = .ok (arguments, data) ∧
          Entered data arguments k'.activeRoot.val entry stack argc argv s' ∧
          readFrame k'.view context = userFrame entry stack argc argv ∧
          ∀ a, a < Machine.userSpaceEnd → k'.view a = userBytes s' a
  | .stopped _ => False

/-- All that a call asks the kernel heap for when nothing is refused. -/
def asked (k : Kernel) (env : Surroundings) (present : Bool) (disk : Store)
    (blob length count : Word) : List ExecFile.Request :=
  (named k env present disk blob length count).asks ++
    match (named k env present disk blob length count).result with
    | .error _ => []
    | .ok (_, data) => (List.range (pagesTried data)).map .page ++
        if Accepted data then [.addresses] else []

theorem copyOut_gather {n : Nat} {found pieces : List Argument}
    (ok : (copyOut n found pieces).result = .ok arguments) :
    gather n found pieces = some arguments := by
  induction pieces generalizing found with
  | nil => exact congrArg some (Except.ok.inj ok)
  | cons piece rest ih =>
      unfold copyOut at ok
      unfold gather
      split_ifs at ok ⊢ with full empty valid
      · exact congrArg some (Except.ok.inj ok)
      · exact ih ok
      · rw [(ask_bind _ _).2] at ok
        exact ih ok
      · cases ok

theorem named_ok (found : (named k env present disk blob length count).result = .ok (arguments, data)) :
    ¬(env.access.allows blob length = false ∨ 1024 < length ∨ count = 0 ∨ 16 < count) ∧
      gather count.toNat [] ((loadBytes k.view blob length.toNat).splitOn 0) = some arguments ∧
      arguments ≠ [] := by
  unfold named at found
  split_ifs at found with checks
  · cases found
  obtain ⟨names, copied, found⟩ := ok_of_bind found
  cases names with
  | nil => cases found
  | cons name rest =>
      obtain ⟨-, -, found⟩ := ok_of_bind found
      obtain ⟨volume, -, found⟩ := ok_of_bind found
      obtain ⟨entry, -, found⟩ := ok_of_bind found
      obtain ⟨contents, -, found⟩ := ok_of_bind found
      obtain ⟨rfl, -⟩ := Prod.mk.inj (Except.ok.inj found)
      exact ⟨checks, copyOut_gather copied, List.cons_ne_nil _ _⟩

theorem named_stored {name : Argument} {rest : List Argument} {volume : Fat.Reading.Volume}
    {entry : Fat.Reading.Entry} {text : List Char}
    (checks : ¬(env.access.allows blob length = false ∨ 1024 < length ∨ count = 0 ∨ 16 < count))
    (copied : (copyOut count.toNat [] ((loadBytes k.view blob length.toNat).splitOn 0)).result =
      .ok (name :: rest))
    (mounted : Fat.Reading.mount present disk = .ok volume)
    (spelled : name.map UInt8.ofBitVec = Fat.Reading.bytes text)
    (found : volume.find disk text = .ok entry) (read : volume.readFile disk entry = .ok data) :
    (named k env present disk blob length count).result = .ok (name :: rest, data) := by
  have searched : (within ExecFile.Request.file
      (Fat.Allocating.find volume disk (name.map UInt8.ofBitVec))).result = .ok entry := by
    rw [spelled]
    exact (Fat.Allocating.find_ends text).1.trans found
  have contents : (within ExecFile.Request.file (Fat.Allocating.readFile volume disk entry)).result =
      .ok data := (Fat.Allocating.readFile_ends entry).1.trans read
  unfold named
  rw [if_neg checks, (bind_ok copied).2]
  dsimp only
  rw [(ask_bind _ _).2, mounted, (bind_ok (show (give (Except.ok volume)).result = .ok volume from rfl)).2,
    (bind_ok searched).2, (bind_ok contents).2]
  rfl

theorem named_spec
    (found : (named k env present disk blob length count).result = .ok (arguments, data)) :
    (∀ x ∈ arguments, 0 ∉ x) ∧ room arguments + 8 * arguments.length ≤ 3968 ∧
      ∃ first rest, arguments = first :: rest ∧ first ≠ [] := by
  obtain ⟨checks, gathered, some'⟩ := named_ok found
  obtain ⟨name, rest, rfl⟩ := List.exists_cons_of_ne_nil some'
  simp only [not_or] at checks
  obtain ⟨-, small, -, few⟩ := checks
  have pieces := gather_spec gathered (Nat.zero_le _)
  rw [List.nil_append, List.length_nil, Nat.sub_zero] at pieces
  have taken : ∀ x ∈ name :: rest, x ∈ (loadBytes k.view blob length.toNat).splitOn 0 ∧ x ≠ [] := by
    intro x member
    rw [pieces] at member
    have kept := List.mem_of_mem_take member
    rw [List.mem_filter, decide_eq_true_iff] at kept
    exact kept
  refine ⟨fun x member => not_mem_splitOn 0 _ x (taken x member).1, ?_, name, rest, rfl,
    (taken name List.mem_cons_self).2⟩
  have bytes : (loadBytes k.view blob length.toNat).length ≤ 1024 := by
    unfold loadBytes
    rw [List.length_map, List.length_range]
    exact Nat.le_of_not_lt small
  rw [pieces]
  exact arguments_short bytes (Nat.le_of_not_lt few)

theorem exec_installs (fits : Fits context) (high : Machine.userSpaceEnd ≤ context.toNat)
    (found : (named k env present disk blob length count).result = .ok (arguments, data))
    (image : Image) :
    (exec k { env with image := some image } blob length count context).1 = 0 ∧
      (exec k { env with image := some image } blob length count context).2.activeRoot = image.root ∧
      readFrame (exec k { env with image := some image } blob length count context).2.view context =
        userFrame image.entry image.stack image.argc image.argv ∧
      ∀ a, a < Machine.userSpaceEnd →
        (exec k { env with image := some image } blob length count context).2.view a = image.memory a := by
  have started : (exec k { env with image := some image } blob length count context).1 = 0 ∧
      (exec k { env with image := some image } blob length count context).2.activeRoot = image.root := by
    unfold exec
    rw [if_neg (named_ok found).1]
    exact ⟨rfl, rfl⟩
  obtain ⟨-, -, image', same, frame, bytes⟩ := exec_starts fits high started.1
  obtain rfl := Option.some.inj same
  exact ⟨started.1, started.2, frame, bytes⟩

/-- The setting of a call, once it is known who calls and with which heap. -/
private def calling (k : Kernel) (heap : ExecFile.Request → Bool) (setting : Setting) : Setting :=
  { setting with top := (StackRegions.stackRegion k k.current).1,
                 limit := (StackRegions.stackRegion k k.current).2,
                 grants := fun count => heap (.page count) }

/-- `exec` fails without a trace or enters the program exactly when the kernel heap has room for all
that the call asks for and no program it would load seals the stack page. Where the setting grants a
store a single attempt, that is also to say that no store of the kernel faults. -/
theorem exec_returns_iff (patient : Patient setting) (books : Books s managed live hand chain)
    (member : s.cr3 ∈ live) (fits : Fits context) (high : Machine.userSpaceEnd ≤ context.toNat)
    (enough : ∀ arguments data,
      (named k env present disk blob length count).result = .ok (arguments, data) →
        framesTried data + 5 ≤ chain.length) :
    Fine k env present disk blob length count context live s
        (execFile k env present disk heap setting blob length count context s) ↔
      (∀ r ∈ asked k env present disk blob length count, heap r = true) ∧
        ∀ arguments data,
          (named k env present disk blob length count).result = .ok (arguments, data) →
            Accepted data → ¬StackSealed data := by
  unfold execFile
  rcases ran : (named k env present disk blob length count).run heap with _ | ⟨text | ⟨arguments, data⟩⟩
  · obtain ⟨r, member, refused⟩ := run_none.mp ran
    refine iff_of_false id fun all => ?_
    rw [all.1 r (List.mem_append_left _ member)] at refused
    cases refused
  · obtain ⟨granted, result⟩ := run_some.mp ran
    refine iff_of_true (.inl ⟨rfl, rfl, rfl, fun _ _ _ => ⟨rfl, rfl⟩⟩) ⟨fun r member => ?_,
      fun _ _ found => ?_⟩
    · rw [asked, result, List.append_nil] at member
      exact granted r member
    · rw [result] at found
      cases found
  obtain ⟨granted, result⟩ := run_some.mp ran
  obtain ⟨nonzero, short, first, rest, rfl, some'⟩ := named_spec result
  have all : asked k env present disk blob length count =
      (named k env present disk blob length count).asks ++
        ((List.range (pagesTried data)).map .page ++ if Accepted data then [.addresses] else []) := by
    rw [asked, result]
  have only : ∀ arguments' data', (named k env present disk blob length count).result =
      .ok (arguments', data') → data' = data := by
    intro arguments' data' found
    rw [result] at found
    exact (Prod.mk.inj (Except.ok.inj found)).2.symm
  have roomy : (∀ r ∈ asked k env present disk blob length count, heap r = true) ↔
      Roomy (fun count => heap (.page count)) data ∧ (Accepted data → heap .addresses = true) := by
    rw [all]
    constructor
    · refine fun every => ⟨fun n below => every _ ?_, fun accepted => every _ ?_⟩
      · exact List.mem_append_right _ (List.mem_append_left _
          (List.mem_map_of_mem (List.mem_range.mpr below)))
      · rw [if_pos accepted]
        simp
    · rintro ⟨pages, addresses⟩ r member
      rcases List.mem_append.mp member with early | late
      · exact granted r early
      rcases List.mem_append.mp late with page | address
      · obtain ⟨n, below, rfl⟩ := List.mem_map.mp page
        exact pages n (List.mem_range.mp below)
      · split_ifs at address with accepted
        · rw [List.mem_singleton.mp address]
          exact addresses accepted
        · exact absurd address List.not_mem_nil
  have patient' : Patient (calling k heap setting) := ⟨patient.passes, patient.attempts⟩
  have ended := @replace_ended s managed live hand chain (calling k heap setting) data
    (heap .addresses) first rest patient' books member nonzero some' short (enough _ data result)
  rw [roomy]
  unfold calling at ended
  dsimp only
  generalize replace _ (heap .addresses) data (first :: rest) s = outcome at ended ⊢
  rcases outcome with s' | ⟨root, entry, stack, argc, argv, s'⟩ | why
  · obtain ⟨same, refused, pages⟩ := ended
    refine iff_of_true (.inl ⟨rfl, rfl, same⟩) ⟨⟨pages, fun accepted => absurd accepted refused⟩,
      fun _ data' found accepted => ?_⟩
    exact absurd (only _ _ found ▸ accepted) refused
  · obtain ⟨entered, open', pages, addresses⟩ := ended
    refine iff_of_true (.inr ?_) ⟨⟨pages, fun _ => addresses⟩, fun _ data' found _ => ?_⟩
    · obtain ⟨answer, active, frame, bytes⟩ := exec_installs fits high result
        ⟨rootAt root, userBytes s', entry, stack, argc, argv⟩
      have same : (rootAt root).val = root := by
        unfold rootAt
        rw [dif_pos entered.nonzero]
      refine ⟨answer, _, data, entry, stack, argc, argv, result, ?_, frame, bytes⟩
      rw [active, same]
      exact entered
    · exact only _ _ found ▸ open'
  · refine iff_of_false id fun both => ?_
    cases why with
    | halted => exact both.2 _ data result ended.1 ended.2
    | exhausted =>
        rcases ended with narrow | ⟨accepted, refused⟩
        · exact narrow both.1.1
        · rw [both.1.2 accepted] at refused
          cases refused
    | panicked => exact ended
    | unfinished => exact ended

variable (context) in
theorem execFile_halts (patient : Patient setting) (books : Books s managed live hand chain)
    (member : s.cr3 ∈ live)
    (found : (named k env present disk blob length count).result = .ok (arguments, data))
    (enough : framesTried data + 5 ≤ chain.length) (granted : ∀ r, heap r = true)
    (accepted : Accepted data) (shut : StackSealed data) :
    execFile k env present disk heap setting blob length count context s = .stopped .halted := by
  obtain ⟨nonzero, short, first, rest, rfl, some'⟩ := named_spec found
  have ran : (named k env present disk blob length count).run heap = some (.ok (first :: rest, data)) :=
    run_some.mpr ⟨fun r _ => granted r, found⟩
  have patient' : Patient (calling k heap setting) := ⟨patient.passes, patient.attempts⟩
  have ended := @replace_ended s managed live hand chain (calling k heap setting) data
    (heap .addresses) first rest patient' books member nonzero some' short enough
  unfold calling at ended
  unfold execFile
  rw [ran]
  dsimp only
  generalize replace _ (heap .addresses) data (first :: rest) s = outcome at ended ⊢
  rcases outcome with s' | ⟨root, entry, stack, argc, argv, s'⟩ | why
  · exact absurd accepted ended.2.1
  · exact absurd shut ended.2.1
  · cases why with
    | halted => rfl
    | exhausted =>
        rcases ended with narrow | ⟨-, refused⟩
        · exact absurd (fun n _ => granted (.page n)) narrow
        · rw [granted] at refused
          cases refused
    | panicked => exact ended.elim
    | unfinished => exact ended.elim

end Calls

section Scenario

private def shellChild : Kernel where
  tasks := Function.update (fun _ => empty) 1
    { empty with state := .ready, addressSpace := some (rootAt 0x101000) }
  current := 1
  enabled := true
  ticks := 0
  activeRoot := rootAt 0x101000
  kernelRoot := rootAt 0x1000
  rsp0 := 0
  sched := FiveAM.Sched.Mechanism.new
  pipes := fun _ => .empty
  orphans := []
  memory := ⟨fun _ => 0, fun _ a => if a = 0x400000 then 97 else 0⟩

private def everywhere : Surroundings where
  access := Pipes.lowHalf
  space := none
  stack := 0
  image := none
  input := []

private theorem one_space : ∃ s, s.cr3 = 0x101000 ∧
    Books s fewFrames.reverse.toFinset {0x101000} [] fewFrames.tail := by
  obtain ⟨s', made, books⟩ := fewFrames_fresh
  have shows := newSpace_shows books made
  exact ⟨{ s' with cr3 := 0x101000 }, rfl, shows.books⟩

private theorem stored_program {data : List UInt8} (small : data.length ≤ 2048) : ∃ disk,
    (named shellChild everywhere true disk 0x400000 1 1).result = .ok ([[97]], data) := by
  have short : Fat.Names.Short "a".toList := by decide
  have back : Fat.Image.ReadsBack "a".toList := by decide +kernel
  have fits : Fat.Mkfs.clustersFor data < 8167 := by
    have cluster : Fat.Mkfs.sectorsPerCluster * Fat.Mkfs.sector = 2048 := rfl
    unfold Fat.Mkfs.clustersFor Fat.Reading.divCeil
    rw [cluster]
    split_ifs <;> omega
  obtain ⟨disk, volume, entry, -, mounted, found, -, read⟩ := Fat.Image.stored_alone short back fits
  have copied : (copyOut (1 : Word).toNat []
      ((loadBytes shellChild.view 0x400000 (1 : Word).toNat).splitOn 0)).result = .ok [[97]] := by
    decide +kernel
  exact ⟨disk, named_stored (by decide) copied mounted (by decide) found read⟩

theorem exec_returns_oneSegment : ∃ s disk, s.cr3 = 0x101000 ∧
    Fine shellChild everywhere true disk 0x400000 1 1 0x8000001000 {0x101000} s
      (execFile shellChild everywhere true disk (fun _ => true) eager 0x400000 1 1 0x8000001000 s) := by
  obtain ⟨s, active, books⟩ := one_space
  have small : oneSegment.length ≤ 2048 := by decide +kernel
  obtain ⟨disk, found⟩ := stored_program small
  have frames : framesTried oneSegment + 5 ≤ fewFrames.tail.length := by decide +kernel
  have apart : lastMeeting (segments oneSegment) stackPage = none := by decide +kernel
  have member : s.cr3 ∈ ({0x101000} : Finset Word) := active ▸ Finset.mem_singleton_self _
  have above : Machine.userSpaceEnd ≤ (0x8000001000 : Word).toNat := by decide
  refine ⟨s, disk, active, ?_⟩
  rw [exec_returns_iff patient_eager books member (by decide) above]
  · refine ⟨fun _ _ => rfl, fun _ _ equal _ => ?_⟩
    obtain ⟨-, rfl⟩ := Prod.mk.inj (Except.ok.inj (found.symm.trans equal))
    rintro ⟨last, there, -⟩
    rw [apart] at there
    cases there
  · intro _ _ equal
    obtain ⟨-, rfl⟩ := Prod.mk.inj (Except.ok.inj (found.symm.trans equal))
    exact frames

/-- A program whose only segment is code in the stack page. -/
def sealedStack : List UInt8 := fileOf 0x10f000 [⟨ptLoad, 5, 0, 0x10f000, 0, 4, 16, 0⟩]

/-- Its first argument stops the machine, however much room the kernel heap has. -/
theorem sealedStack_halts : ∃ s disk, s.cr3 = 0x101000 ∧
    execFile shellChild everywhere true disk (fun _ => true) eager 0x400000 1 1 0x8000001000 s =
      .stopped .halted ∧
    ¬Fine shellChild everywhere true disk 0x400000 1 1 0x8000001000 {0x101000} s
      (execFile shellChild everywhere true disk (fun _ => true) eager 0x400000 1 1 0x8000001000 s) := by
  obtain ⟨s, active, books⟩ := one_space
  have small : sealedStack.length ≤ 2048 := by decide +kernel
  obtain ⟨disk, found⟩ := stored_program small
  have last : lastMeeting (segments sealedStack) stackPage =
      some ⟨ptLoad, 5, 0, 0x10f000, 0, 4, 16, 0⟩ := by decide +kernel
  have halts := execFile_halts 0x8000001000 patient_eager books
    (active ▸ Finset.mem_singleton_self _) found (by decide +kernel) (fun _ => rfl) (by decide +kernel)
    ⟨_, last, by decide⟩
  refine ⟨s, disk, active, halts, ?_⟩
  rw [halts]
  exact id

end Scenario

end FiveAM.Process.ExecRuns
