/- GID: FiveAM/Memory/UserWays
   source: kernel/src/memory.rs
   digest: Every table on the way to a user page lets ring 3 through, however the page got there. -/

import FiveAM.Memory.CopyOnWrite

set_option autoImplicit false
set_option relaxedAutoImplicit false

namespace FiveAM.Memory.UserWays

open FiveAM.Process.TaskTable (Word)
open FiveAM.Memory.Entries FiveAM.Memory.Frames FiveAM.Memory.Replace FiveAM.Memory.PageTables
open FiveAM.Memory.Ownership FiveAM.Memory.Spaces FiveAM.Memory.Forking FiveAM.Memory.Conservation
open FiveAM.Memory.CopyOnWrite FiveAM.Memory.Residency FiveAM.Lib.RadixTables

section Trails

variable {m : Words} {path : Nat → Index} {level : Nat} {table : Word}

/-- The upper entries a walk passes on the way to a page. -/
def trail (m : Words) (level : Nat) (table : Word) (path : Nat → Index) : List Word :=
  along userTree (fun e rest => e :: rest) (fun _ => []) (fun _ => []) m level table path

def trailFrom (m : Words) (path : Nat → Index) (level : Nat) (e : Word) : List Word :=
  beyond userTree (fun e rest => e :: rest) (fun _ => []) (fun _ => []) m path level e

def Lets (entries : List Word) : Prop := ∀ e ∈ entries, has e user = true

theorem lets_append {first rest : List Word} : Lets (first ++ rest) ↔ Lets first ∧ Lets rest := by
  unfold Lets
  simp only [List.mem_append]
  exact ⟨fun all => ⟨fun e inside => all e (Or.inl inside), fun e inside => all e (Or.inr inside)⟩,
    fun both e inside => inside.elim (both.1 e) (both.2 e)⟩

theorem lets_cons {e : Word} {rest : List Word} :
    Lets (e :: rest) ↔ has e user = true ∧ Lets rest := by
  unfold Lets
  exact List.forall_mem_cons

theorem trail_down {c : Word}
    (down : userTree.child (level + 1) (path (level + 1)) (m table (path (level + 1))) = some c) :
    trail m (level + 1) table path = m table (path (level + 1)) :: trail m level c path := by
  unfold trail
  rw [along_eq, beyond_child down]

theorem trail_stop
    (ends : userTree.child (level + 1) (path (level + 1)) (m table (path (level + 1))) = none) :
    trail m (level + 1) table path = [] := by
  unfold trail
  rw [along_eq, beyond_stop ends]

theorem trail_empty (empty : ∀ i, m table i = 0) (level : Nat) (path : Nat → Index) :
    trail m level table path = [] :=
  along_empty rfl empty level path

private theorem foldr_entries (upper rest : List Word) :
    upper.foldr (fun e rest => e :: rest) rest = upper ++ rest := by
  simp

theorem trail_route {n k : Nat} {t u : Word} (route : Route userTree m path n t k u) :
    ∃ upper, trail m n t path = upper ++ trail m k u path := by
  have reading : ∃ upper : List Word, trail m n t path =
      upper.foldr (fun e rest => e :: rest) (trail m k u path) := along_route route
  obtain ⟨upper, reads⟩ := reading
  exact ⟨upper, reads.trans (foldr_entries _ _)⟩

end Trails

section Writes

variable {s s' s'' : Paging} {managed live : Finset Word} {hand chain : List Word} {root u : Word}
  {path : Nat → Index} {k : Nat}

theorem trail_on (books : Books s managed live hand chain) (member : root ∈ live)
    (route : Route userTree s.words path 3 root k u) (e : Word) {p : Nat → Index}
    (follows : ∀ j, k ≤ j → j ≤ 3 → p j = path j) :
    ∃ upper, trail s.words 3 root p = upper ++ trailFrom s.words p k (s.words u (path k)) ∧
      trail (s.write u (path k) e).words 3 root p =
        upper ++ trailFrom (s.write u (path k) e).words p k e := by
  obtain ⟨once, -⟩ := books.table member route
  obtain ⟨alone, -⟩ := absent_elsewhere member route.occurs once
  have reading : ∃ upper : List Word,
      trail s.words 3 root p = upper.foldr (fun e rest => e :: rest)
        (trailFrom s.words p k (s.words u (path k))) ∧
      trail (put s.words u (path k) e) 3 root p = upper.foldr (fun e rest => e :: rest)
        (trailFrom (put s.words u (path k) e) p k e) := along_put_on route alone e follows
  obtain ⟨upper, before, after⟩ := reading
  rw [foldr_entries] at before after
  exact ⟨upper, before, after⟩

theorem trail_off (books : Books s managed live hand chain) (member : root ∈ live)
    (route : Route userTree s.words path 3 root k u) (e : Word) {r : Word} (there : r ∈ live)
    {p : Nat → Index} (off : ¬(r = root ∧ ∀ j, k ≤ j → j ≤ 3 → p j = path j)) :
    trail (s.write u (path k) e).words 3 r p = trail s.words 3 r p := by
  obtain ⟨once, -⟩ := books.table member route
  obtain ⟨alone, others⟩ := absent_elsewhere member route.occurs once
  by_cases here : r = root
  · subst here
    have leaves : ∃ j, k ≤ j ∧ j ≤ 3 ∧ p j ≠ path j := by
      by_contra none
      refine off ⟨rfl, fun j low high => ?_⟩
      by_contra other
      exact none ⟨j, low, high, other⟩
    exact along_put_off route alone e leaves
  · refine along_congr fun v inside => put_table fun same => ?_
    rw [same, others r there here] at inside
    exact Nat.lt_irrefl 0 inside

def Users (s s' : Paging) (live : Finset Word) : Prop :=
  ∀ r ∈ live, ∀ p, leafAt s.words r p ≠ 0 → Lets (trail s.words 3 r p) → Lets (trail s'.words 3 r p)

theorem Users.refl (s : Paging) (live : Finset Word) : Users s s live := fun _ _ _ _ lets => lets

theorem Users.trans (first : Users s s' live) (second : Users s' s'' live)
    (leaves : ∀ r ∈ live, ∀ p, leafAt s'.words r p = leafAt s.words r p) : Users s s'' live :=
  fun r member p there lets =>
    second r member p (by rwa [leaves r member p]) (first r member p there lets)

/-- The entries from the root down to a table let ring 3 through. -/
def Open (m : Words) (root : Word) (path : Nat → Index) (level : Nat) (table : Word) : Prop :=
  ∃ upper, Lets upper ∧ trail m 3 root path = upper ++ trail m level table path

variable {c e : Word}

theorem users_widen (books : Books s managed live hand chain) (member : root ∈ live)
    (route : Route userTree s.words path 3 root (k + 1) u)
    (down : userTree.child (k + 1) (path (k + 1)) (s.words u (path (k + 1))) = some c)
    (same : userTree.child (k + 1) (path (k + 1)) e = some c)
    (more : has (s.words u (path (k + 1))) user = true → has e user = true) :
    Users s (s.write u (path (k + 1)) e) live ∧
      (has e user = true → Open s.words root path (k + 1) u →
        Open (s.write u (path (k + 1)) e).words root path k c) := by
  obtain ⟨once, -⟩ := books.table member route
  have absent : tables userTree s.words k c u = 0 := child_absent member route once down
  have below : ∀ p, trail (s.write u (path (k + 1)) e).words k c p = trail s.words k c p :=
    fun p => along_congr fun v there => put_table fun here => by
      rw [here, absent] at there
      exact Nat.lt_irrefl 0 there
  have both : ∀ p, (∀ j, k + 1 ≤ j → j ≤ 3 → p j = path j) → ∃ upper,
      trail s.words 3 root p = upper ++ s.words u (path (k + 1)) :: trail s.words k c p ∧
      trail (s.write u (path (k + 1)) e).words 3 root p = upper ++ e :: trail s.words k c p := by
    intro p follows
    obtain ⟨upper, before, after⟩ := trail_on books member route e follows
    have turn := follows (k + 1) (Nat.le_refl _) route.le
    unfold trailFrom at before after
    rw [beyond_child (by rw [turn]; exact down)] at before
    rw [beyond_child (by rw [turn]; exact same)] at after
    exact ⟨upper, before, after.trans (by rw [← below p]; rfl)⟩
  refine ⟨fun r there p _ lets => ?_, fun lets open' => ?_⟩
  · by_cases on : r = root ∧ ∀ j, k + 1 ≤ j → j ≤ 3 → p j = path j
    · obtain ⟨rfl, follows⟩ := on
      obtain ⟨upper, before, after⟩ := both p follows
      rw [before, lets_append, lets_cons] at lets
      rw [after, lets_append, lets_cons]
      exact ⟨lets.1, more lets.2.1, lets.2.2⟩
    · rw [trail_off books member route e there on]
      exact lets
  · obtain ⟨upper, fine, reads⟩ := open'
    obtain ⟨upper', before, after⟩ := both path fun _ _ _ => rfl
    rw [trail_down down] at reads
    have cut : upper = upper' := List.append_cancel_right (reads.symm.trans before)
    refine ⟨upper ++ [e], lets_append.mpr ⟨fine, lets_cons.mpr ⟨lets, fun _ none => ?_⟩⟩, ?_⟩
    · exact absurd none List.not_mem_nil
    · rw [after, below, cut, List.append_assoc]
      rfl

theorem users_attach (books : Books s managed live hand chain) (member : root ∈ live)
    (route : Route userTree s.words path 3 root (k + 1) u)
    (none : userTree.child (k + 1) (path (k + 1)) (s.words u (path (k + 1))) = none)
    (fresh : userTree.child (k + 1) (path (k + 1)) e = some c) :
    Users s (s.write u (path (k + 1)) e) live ∧
      (has e user = true → Open s.words root path (k + 1) u →
        Open (s.write u (path (k + 1)) e).words root path k c) := by
  obtain ⟨once, -⟩ := books.table member route
  obtain ⟨alone, -⟩ := absent_elsewhere member route.occurs once
  refine ⟨fun r there p leaf lets => ?_, fun lets open' => ?_⟩
  · by_cases on : r = root ∧ ∀ j, k + 1 ≤ j → j ≤ 3 → p j = path j
    · obtain ⟨rfl, follows⟩ := on
      have turn := follows (k + 1) (Nat.le_refl _) route.le
      have blank : leafAt s.words r p = 0 := by
        refine (entryAt_put route alone e follows).1.trans ?_
        exact beyond_stop (by rw [turn]; exact none)
      exact absurd blank leaf
    · rw [trail_off books member route e there on]
      exact lets
  · obtain ⟨upper, fine, reads⟩ := open'
    obtain ⟨upper', before, after⟩ := trail_on books member route e (p := path) fun _ _ _ => rfl
    unfold trailFrom at before after
    rw [beyond_stop none, List.append_nil] at before
    rw [beyond_child fresh] at after
    rw [trail_stop none, List.append_nil] at reads
    have cut : upper = upper' := reads.symm.trans before
    refine ⟨upper ++ [e], lets_append.mpr ⟨fine, lets_cons.mpr ⟨lets, fun _ none => ?_⟩⟩, ?_⟩
    · exact absurd none List.not_mem_nil
    · rw [after, cut, List.append_assoc]
      rfl

end Writes

section Building

variable {s s' : Paging} {managed live : Finset Word} {hand chain : List Word} {root : Word}

theorem trail_kept (kept : ∀ f, 0 < tableCount s.words live f → s'.words f = s.words f)
    (member : root ∈ live) (p : Nat → Index) : trail s'.words 3 root p = trail s.words 3 root p :=
  along_congr fun v there => kept v (lt_of_lt_of_le there (tables_le_occurs member v))

private theorem user_tableEntry (new flags : Word) (wide : has flags user = true) :
    has (tableEntry new (flags &&& user)) user = true := by
  rw [has_user] at wide ⊢
  rw [tableEntry, BitVec.getLsbD_or, BitVec.getLsbD_and, wide]
  simp only [show user.getLsbD 2 = true from by decide, Bool.and_true, Bool.or_true]

private theorem user_widened (e : Word) : has (e ||| user) user = true := by
  rw [has_user, BitVec.getLsbD_or]
  simp only [show user.getLsbD 2 = true from by decide, Bool.or_true]

private theorem users_grow {c u : Word} {rest : List Word} {path : Nat → Index} {k : Nat}
    (books : Books s managed live hand (c :: rest)) (member : root ∈ live)
    (route : Route userTree s.words path 3 root (k + 1) u) (low : path 3 = 0)
    (ends : userTree.child (k + 1) (path (k + 1)) (s.words u (path (k + 1))) = none)
    (flags : Word) :
    Users s ((({ s with head := s.words c 0, free := s.free - 1 } : Paging).fill c fun _ => 0).write u
        (path (k + 1)) (tableEntry c (flags &&& user))) live ∧
      (has flags user = true → Open s.words root path (k + 1) u →
        Open ((({ s with head := s.words c 0, free := s.free - 1 } : Paging).fill c fun _ => 0).write u
          (path (k + 1)) (tableEntry c (flags &&& user))).words root path k c) := by
  obtain ⟨-, held⟩ := books.take
  have filled := held.fill fun _ => 0
  have trees := held.trees_fill fun _ => 0
  have framed := books.account.framed c held.held.2.2.2.2
  have kept : ∀ f, 0 < tableCount s.words live f →
      (({ s with head := s.words c 0, free := s.free - 1 } : Paging).fill c fun _ => 0).words f =
        s.words f := fun f there => Function.update_of_ne (fun same => by
    have none : tableCount s.words live c = 0 := held.held.2.1
    rw [same, none] at there
    exact Nat.lt_irrefl 0 there) _ _
  have route1 := trees.routes root member path (k + 1) u route
  have word := kept u (lt_of_lt_of_le route.occurs (tables_le_occurs member u))
  generalize (({ s with head := s.words c 0, free := s.free - 1 } : Paging).fill c fun _ => 0) = s0
    at filled trees kept route1 word ⊢
  have ends0 : userTree.child (k + 1) (path (k + 1)) (s0.words u (path (k + 1))) = none := by
    rw [word]
    exact ends
  have leads : userTree.child (k + 1) (path (k + 1)) (tableEntry c (flags &&& user)) = some c := by
    refine (if_pos ⟨present_tableEntry _ _, huge_tableEntry framed, fun top => top ▸ low⟩).trans ?_
    rw [frameOf_tableEntry framed]
  obtain ⟨users, opens⟩ := users_attach filled member route1 ends0 leads
  have first : Users s s0 live := fun r there p _ lets => by
    rw [trail_kept kept there p]
    exact lets
  refine ⟨first.trans users trees.leaves, fun wide ⟨upper, fine, reads⟩ =>
    opens (user_tableEntry c flags wide) ⟨upper, fine, ?_⟩⟩
  rw [trail_kept kept member path, reads, trail_stop ends, trail_stop ends0]

theorem descend_users {address flags : Word} {level : Nat} {table u : Word}
    (books : Books s managed live hand chain) (member : root ∈ live) (low : indexes address 3 = 0)
    (route : Route userTree s.words (indexes address) 3 root level table)
    (run : descend address (flags &&& user) level table s = (.ok u, s')) :
    Users s s' live ∧ (has flags user = true →
      Open s.words root (indexes address) level table →
        Lets (trail s'.words 3 root (indexes address))) := by
  induction level generalizing s table chain with
  | zero =>
      obtain ⟨-, rfl⟩ := Prod.mk.inj run
      refine ⟨Users.refl s live, fun _ ⟨upper, fine, reads⟩ => ?_⟩
      rw [reads]
      exact lets_append.mpr ⟨fine, fun _ none => absurd none List.not_mem_nil⟩
  | succ level ih =>
      cases there : has (s.words table (indexes address (level + 1))) present with
      | true =>
          obtain ⟨s1, step, books1, builds, route1, -, shape⟩ := descend_there flags books
            member low route there
          rw [step] at run
          obtain ⟨users1, open1⟩ := ih books1 route1 run
          obtain ⟨absent, -⟩ | ⟨-, -, down⟩ := (books.sound root member).entry low route
          · rw [absent] at there
            cases there
          have first : Users s s1 live ∧ (has flags user = true →
              Open s.words root (indexes address) (level + 1) table →
                Open s1.words root (indexes address) level
                  (frameOf (s.words table (indexes address (level + 1))))) := by
            rcases shape with ⟨rfl, lets⟩ | rfl
            · refine ⟨Users.refl s1 live, fun wide ⟨upper, fine, reads⟩ => ?_⟩
              rw [trail_down down] at reads
              refine ⟨upper ++ [s1.words table (indexes address (level + 1))], ?_, ?_⟩
              · refine lets_append.mpr ⟨fine, lets_cons.mpr ⟨lets ?_, fun _ none => ?_⟩⟩
                · simpa [has] using wide
                · exact absurd none List.not_mem_nil
              · rw [reads, List.append_assoc]
                rfl
            · have set := user_widened (s.words table (indexes address (level + 1)))
              obtain ⟨users, opens⟩ := users_widen books member route down (child_widened down)
                fun _ => set
              exact ⟨users, fun _ => opens set⟩
          exact ⟨first.1.trans users1 builds.leaves, fun wide open' => open1 wide (first.2 wide open')⟩
      | false =>
          have ends : userTree.child (level + 1) (indexes address (level + 1))
              (s.words table (indexes address (level + 1))) = none :=
            if_neg fun all => absurd (there.symm.trans all.1) (by decide)
          cases chain with
          | nil =>
              rw [descend] at run
              simp only [there, Bool.false_eq_true, if_false, books.account.allocate_none,
                Prod.mk.injEq, reduceCtorEq, false_and] at run
          | cons c rest =>
              obtain ⟨s1, books1, builds, route1, zero, shape⟩ := books_grow books member route low
                there flags
              have step : descend address (flags &&& user) (level + 1) table s =
                  descend address (flags &&& user) level c s1 := by
                rw [descend]
                simp only [there, Bool.false_eq_true, if_false, books.take.1]
                rw [shape]
              rw [step] at run
              obtain ⟨users1, open1⟩ := ih books1 route1 run
              obtain ⟨users, opens⟩ := users_grow books member route low ends flags
              rw [← shape] at users opens
              exact ⟨users.trans users1 builds.leaves, fun wide open' => open1 wide (opens wide open')⟩

end Building

section Pages

variable {s s' : Paging} {managed live : Finset Word} {hand chain : List Word} {root : Word}

/-- Every way to a user page is open to ring 3. -/
def Admits (m : Words) (live : Finset Word) : Prop :=
  ∀ r ∈ live, ∀ p, has (leafAt m r p) present = true → has (leafAt m r p) user = true →
    Lets (trail m 3 r p)

theorem trail_indexes {m : Words} {p q : Nat → Index} {n : Nat} {t : Word}
    (same : ∀ j, j ≤ n → p j = q j) : trail m n t p = trail m n t q := by
  induction n generalizing t with
  | zero => rfl
  | succ n ih =>
      have turn : p (n + 1) = q (n + 1) := same (n + 1) (Nat.le_refl _)
      cases down : userTree.child (n + 1) (q (n + 1)) (m t (q (n + 1))) with
      | none => rw [trail_stop down, trail_stop (by rw [turn]; exact down)]
      | some c =>
          rw [trail_down down, trail_down (by rw [turn]; exact down), turn,
            ih fun j low => same j (Nat.le_succ_of_le low)]

theorem trail_leaf {path : Nat → Index} {u : Word} (books : Books s managed live hand chain)
    (member : root ∈ live) (route : Route userTree s.words path 3 root 0 u) (e : Word) {r : Word}
    (there : r ∈ live) (p : Nat → Index) :
    trail (s.write u (path 0) e).words 3 r p = trail s.words 3 r p :=
  along_put_same (e := e) member route (books.table member route).1 (fun _ _ => rfl) there p

theorem admits_leaf {path : Nat → Index} {u e : Word} (books : Books s managed live hand chain)
    (member : root ∈ live) (route : Route userTree s.words path 3 root 0 u)
    (admits : Admits s.words live)
    (here : has e present = true → has e user = true → Lets (trail s.words 3 root path)) :
    Admits (s.write u (path 0) e).words live := by
  classical
  intro r there p present' user'
  rw [trail_leaf books member route e there p]
  have leaf := leafAt_write books member route e there p
  rw [leaf] at present' user'
  split_ifs at present' user' with same
  · obtain ⟨rfl, follows⟩ := same
    rw [trail_indexes follows]
    exact here present' user'
  · exact admits r there p present' user'

private theorem user_leafFor (frame flags : Word) :
    has (leafFor frame flags) user = has flags user := by
  rw [has_user, has_user, leafFor, BitVec.getLsbD_or, BitVec.getLsbD_or,
    frameOf_bit frame (by decide)]
  simp only [show present.getLsbD 2 = false from by decide, Bool.false_or, Bool.or_false]

theorem mapPageIn_admits {address frame flags : Word} (books : Books s managed live hand chain)
    (member : root ∈ live) (low : indexes address 3 = 0) (admits : Admits s.words live)
    (run : mapPageIn s root address frame flags = (.ok (), s')) : Admits s'.words live := by
  obtain ⟨enough, short⟩ := descend_spec flags books member low (.here 3 root)
  unfold mapPageIn at run
  dsimp only at run
  rcases Nat.lt_or_ge chain.length (lacking s.words 3 root (indexes address)) with few | room
  · obtain ⟨s1, down, -⟩ := short few
    rw [down] at run
    cases run
  · obtain ⟨u, s1, down, books1, builds, route⟩ := enough room
    rw [down] at run
    dsimp only at run
    by_cases there : has (s1.words u (indexes address 0)) present = true
    · rw [if_pos there] at run
      cases run
    rw [if_neg there] at run
    obtain ⟨-, rfl⟩ := Prod.mk.inj run
    obtain ⟨users, opens⟩ := descend_users books member low (.here 3 root) down
    have begun : Open s.words root (indexes address) 3 root :=
      ⟨[], fun _ none => absurd none List.not_mem_nil, rfl⟩
    have admits1 : Admits s1.words live := fun r live' p present' user' => by
      rw [builds.leaves r live' p] at present' user'
      refine users r live' p (fun zero => ?_) (admits r live' p present' user')
      rw [zero] at present'
      exact absurd present' (by decide)
    have written : Admits (s1.write u (indexes address 0) (leafFor frame flags)).words live :=
      admits_leaf books1 member route admits1 fun _ user' =>
        opens (by rwa [user_leafFor] at user') begun
    change Admits (arrived (s1.write u (indexes address 0) (leafFor frame flags)) address flags).words
      live
    rw [arrived_eq]
    exact written

end Pages

section Forks

variable {s s' : Paging} {managed live : Finset Word} {hand chain : List Word} {root child : Word}

theorem share_words (s : Paging) (frame : Word) : (s.share frame).words = s.words := by
  rw [share_eq]

private theorem forkPage_admits (books : Books s managed live hand chain) (member : root ∈ live)
    (fresh : child ∈ live) {page : Page} (on : OnPage s.words root page)
    (entry : page.entry = s.words page.table page.index) (admits : Admits s.words live)
    (run : forkPage child page s = (.ok (), s')) : Admits s'.words live := by
  obtain ⟨books1, -, here⟩ := lowered_leaf books member on entry
  have leaf := here (indexes page.address) fun _ _ => rfl
  refine mapPageIn_admits books1 fresh on.low ?_ run
  rw [on.index]
  refine admits_leaf books member on.route admits fun present' user' => ?_
  rw [present_lowered] at present'
  rw [user_lowered] at user'
  exact admits root member _ (leaf ▸ present') (leaf ▸ user')

private theorem forkPages_admits {pages : Pages} (books : Books s managed live hand chain)
    (member : root ∈ live) (fresh : child ∈ live) (apart : child ≠ root)
    (waiting : Waiting s root child pages) (admits : Admits s.words live)
    (run : forkPages child pages s = (true, s')) : Admits s'.words live := by
  induction pages generalizing s chain with
  | nil =>
      obtain ⟨-, rfl⟩ := Prod.mk.inj run
      exact admits
  | cons page rest ih =>
      have here := List.mem_cons_self (a := page) (l := rest)
      have step := forkPage_spec books member fresh apart (waiting.on page here)
        (waiting.entry page here) (waiting.there page here) (waiting.absent page here)
      have one : ∀ t, forkPage child page s = (.ok (), t) → Admits t.words live := fun t run =>
        forkPage_admits books member fresh (waiting.on page here) (waiting.entry page here) admits run
      rw [forkPages_cons (waiting.entry page here)] at run
      generalize forkPage child page s = answer at step run one
      cases step with
      | short text few books1 marks => cases run
      | @copied s1 room books1 copies ways =>
          refine ih books1 (waiting.next copies) ?_ run
          rw [share_words]
          exact one s1 rfl

theorem admits_made {s' : Paging} (made : Made s s' live root) (admits : Admits s.words live) :
    Admits s'.words (insert root live) := by
  intro r there p present' user'
  rcases Finset.mem_insert.mp there with rfl | member
  · rw [made.leaves p] at present'
    exact absurd present' (by decide)
  · have trees := trees_kept made.trees
    rw [trees.leaves r member p] at present' user'
    rw [trail_kept made.trees member p]
    exact admits r member p present' user'

theorem fork_admits (books : Books s managed live hand chain) (member : root ∈ live)
    (admits : Admits s.words live) (run : fork s root = (some child, s')) :
    Admits s'.words (insert child live) := by
  unfold fork at run
  cases chain with
  | nil =>
      have failed : newSpace s = (none, s) := by
        unfold newSpace
        rw [books.account.allocate_none]
      rw [failed] at run
      cases run
  | cons first rest =>
      obtain ⟨s0, new, books0, made⟩ := newSpace_made books
      rw [new] at run
      dsimp only at run
      have apart : first ≠ root := fun same => made.outside (same ▸ member)
      have member0 := Finset.mem_insert_of_mem (b := first) member
      have sound0 := books0.sound root member0
      have waiting : Waiting s0 root first (userPages s0 root) :=
        ⟨userPages_apart s0 root, fun page inside => (mem_userPages sound0 inside).1,
          fun page inside => (mem_userPages sound0 inside).2.1,
          fun page inside => (mem_userPages sound0 inside).2.2,
          fun page inside => by rw [made.leaves]; decide⟩
      rcases copied : forkPages first (userPages s0 root) s0 with ⟨done, t⟩
      rw [copied] at run
      cases done with
      | false => cases run
      | true =>
          obtain ⟨same, rfl⟩ := Prod.mk.inj run
          obtain rfl := Option.some.inj same
          exact forkPages_admits books0 member0 (Finset.mem_insert_self _ live) apart waiting
            (admits_made made admits) copied

end Forks

section Walks

variable {s t : Paging} {managed live : Finset Word} {root : Word}

theorem uppers_user {m : Words} {path : Nat → Index} {level : Nat} {table u : Word}
    (route : Route userTree m path level table 0 u) :
    has (uppers m level table path) user = true ↔ Lets (trail m level table path) := by
  induction level generalizing table with
  | zero =>
      have all : has (BitVec.allOnes 64) user = true := by decide
      exact iff_of_true all fun _ none => nomatch none
  | succ level ih =>
      cases route with
      | down step rest =>
          rw [trail_down step, lets_cons, ← ih rest, uppers, along_eq, beyond_child step, has_user,
            has_user, has_user, BitVec.getLsbD_and, Bool.and_eq_true]
          rfl

private theorem route_of_present {m : Words} {path : Nat → Index}
    (there : has (leafAt m root path) present = true) : ∃ u, Route userTree m path 3 root 0 u := by
  by_contra nowhere
  rw [leafAt_nowhere fun u route => nowhere ⟨u, route⟩] at there
  exact absurd there (by decide)

theorem Admits.kept (admits : Admits s.words live)
    (uppers : ∀ r ∈ live, ∀ p, above t.words r p = above s.words r p)
    (leaves : ∀ r ∈ live, ∀ p, has (leafAt t.words r p) present = true →
      has (leafAt t.words r p) user = true →
        has (leafAt s.words r p) present = true ∧ has (leafAt s.words r p) user = true) :
    Admits t.words live := by
  intro r member p there reads
  obtain ⟨there', reads'⟩ := leaves r member p there reads
  obtain ⟨u, route⟩ := route_of_present there
  obtain ⟨u', route'⟩ := route_of_present there'
  have before := (uppers_user route').mpr (admits r member p there' reads')
  exact (uppers_user route).mp ((congrArg (has · user) (uppers r member p)).trans before)

theorem pageAccessible_iff {address : Word} (sound : Sound s.words root)
    (low : indexes address 3 = 0) {level : Nat} {table : Word}
    (route : Route userTree s.words (indexes address) 3 root level table) :
    pageAccessible s address level table = true ↔
      has (entryAt userTree s.words level table (indexes address)) present = true ∧
        has (entryAt userTree s.words level table (indexes address)) user = true ∧
        Lets (trail s.words level table (indexes address)) := by
  induction level generalizing table with
  | zero =>
      have none : Lets (trail s.words 0 table (indexes address)) := fun _ none => nomatch none
      rw [pageAccessible, Bool.and_eq_true, entryAt, along_eq]
      exact ⟨fun both => ⟨both.1, both.2, none⟩, fun all => ⟨all.1, all.2.1⟩⟩
  | succ level ih =>
      rw [pageAccessible]
      rcases sound.entry low route with ⟨absent, ends⟩ | ⟨there, -, down⟩
      · rw [if_pos (.inl absent), entryAt_stop ends]
        exact iff_of_false (by decide) fun both => absurd both.1 (by decide)
      · obtain ⟨-, small, -, -⟩ := child_some down
        rw [entryAt_child down, trail_down down, lets_cons]
        cases open' : has (s.words table (indexes address (level + 1))) user with
        | false =>
            rw [if_pos (.inr rfl)]
            exact iff_of_false (by decide) fun all => absurd all.2.2.1 (by decide)
        | true =>
            rw [if_neg (by simp [there]), if_neg (by simp [small]),
              ih (route.next down)]
            simp

theorem pageAccessible_leaf {address : Word} {hand chain : List Word}
    (books : Books s managed live hand chain) (member : root ∈ live)
    (low : indexes address 3 = 0) (admits : Admits s.words live) :
    pageAccessible s address 3 root = (has (leafAt s.words root (indexes address)) present &&
      has (leafAt s.words root (indexes address)) user) := by
  rw [Bool.eq_iff_iff, Bool.and_eq_true,
    pageAccessible_iff (books.sound root member) low (.here 3 root)]
  exact ⟨fun all => ⟨all.1, all.2.1⟩, fun both =>
    ⟨both.1, both.2, admits root member _ both.1 both.2⟩⟩

end Walks

end FiveAM.Memory.UserWays
