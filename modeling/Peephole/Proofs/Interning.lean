import Peephole.Graph.Path
import Mathlib.Data.List.Nodup

/-!
# Names of paths

Interning looks a path up in the table.  If it is there, it has the name found, and if not,
it becomes the last entry, is named by its place there, and the table learns the name.  This
is right as long as the table and the entries are inverse to each other, which every call
keeps (`Paths.Inverse.intern`).  So no path ever has two names (`Paths.Inverse.nodup`), and
what a name stands for never changes (`Paths.get?_intern_of_get?`).

After a sequence of calls the entries are the paths in order of first occurrence
(`Paths.Inverse.entries_internAll`), and every call has answered with the place of its path
among them.  `Paths.internAll_bijective` puts this together.
-/

namespace Peephole

variable {α β : Type} [BEq α] [LawfulBEq α] [BEq β] [LawfulBEq β]

/-- A map that keeps the members of a list apart keeps its first occurrences. -/
theorem eraseDups_map {f : α → β} : ∀ {l : List α},
    (∀ a ∈ l, ∀ b ∈ l, f a = f b → a = b) → (l.map f).eraseDups = l.eraseDups.map f
  | [], _ => rfl
  | a :: l, hf => by
      have hlen : (l.filter fun b => !b == a).length < l.length + 1 :=
        Nat.lt_succ_of_le (List.length_filter_le _ l)
      have hfilter : (l.map f).filter (fun y => !y == f a) =
          (l.filter fun b => !b == a).map f := by
        rw [List.filter_map]
        refine congrArg (List.map f) (List.filter_congr fun b hb => ?_)
        have hiff : f b = f a ↔ b = a := ⟨hf b (.tail a hb) a (.head l), congrArg f⟩
        rw [Function.comp_apply, Bool.eq_iff_iff]
        simp [hiff]
      have hrest : ((l.filter fun b => !b == a).map f).eraseDups =
          (l.filter fun b => !b == a).eraseDups.map f :=
        eraseDups_map fun b hb c hc =>
          hf b (.tail a (List.mem_filter.1 hb).1) c (.tail a (List.mem_filter.1 hc).1)
      rw [List.map_cons, List.eraseDups_cons, List.eraseDups_cons, List.map_cons, hfilter, hrest]
termination_by l => l.length

/-! ## The table -/

namespace PathTable

theorem get?_empty (s : String) : empty.get? s = none := rfl

/-- Rows of other paths do not matter. -/
theorem lookup_filter_ne {path s : String} (h : s ≠ path) : ∀ rows : List (String × PathId),
    (rows.filter fun row => row.1 ≠ path).lookup s = rows.lookup s
  | [] => rfl
  | (s', p) :: rows => by
      rw [List.filter_cons]
      by_cases hs' : s' = path
      · have hne : (s == s') = false := beq_eq_false_iff_ne.2 (hs' ▸ h)
        rw [if_neg (by simp [hs']), List.lookup_cons, hne]
        exact lookup_filter_ne h rows
      · rw [if_pos (by simp [hs']), List.lookup_cons, List.lookup_cons, lookup_filter_ne h rows]

theorem get?_insert (t : PathTable) (path : String) (p : PathId) (s : String) :
    (t.insert path p).get? s = if s = path then some p else t.get? s := by
  rw [get?, insert, List.lookup_cons]
  split
  · rename_i hs
    rw [if_pos (eq_of_beq hs)]
  · rename_i hs
    have hne : s ≠ path := ne_of_beq_false hs
    rw [if_neg hne, lookup_filter_ne hne, get?]

end PathTable

namespace Paths

variable {ps : Paths} {p q : PathId} {path s : String}

theorem get?_eq_some : ps.get? p = some s ↔ ps.entries.toList[p.index]? = some s := by
  rw [get?, Array.getElem?_toList]

/-- The table and the entries are inverse to each other. -/
def Inverse (ps : Paths) : Prop :=
  ∀ (path : String) (p : PathId), ps.table.get? path = some p ↔ ps.get? p = some path

theorem inverse_empty : empty.Inverse := fun path p => by simp [empty, get?, PathTable.get?_empty]

/-! ## One call -/

namespace Inverse

/-- A path that was met before has the name it was given, and another one becomes the last
entry. -/
theorem intern_cases (h : ps.Inverse) (path : String) :
    (∃ p, ps.get? p = some path ∧ ps.intern path = (p, ps)) ∨
      path ∉ ps.entries ∧ ps.intern path = (⟨ps.entries.size⟩,
        ⟨ps.entries.push path, ps.table.insert path ⟨ps.entries.size⟩⟩) := by
  unfold Paths.intern
  split
  · rename_i p hp
    exact .inl ⟨p, (h path p).1 hp, rfl⟩
  · rename_i hnone
    refine .inr ⟨fun hmem => ?_, rfl⟩
    obtain ⟨i, hi⟩ := Array.mem_iff_getElem?.1 hmem
    have hp := (h path ⟨i⟩).2 hi
    rw [hnone] at hp
    cases hp

/-- A call keeps the table inverse to the entries. -/
theorem intern (h : ps.Inverse) (path : String) : (ps.intern path).2.Inverse := by
  rcases h.intern_cases path with ⟨p, -, heq⟩ | ⟨hnew, heq⟩
  · rw [heq]
    exact h
  · intro s q
    rw [heq, PathTable.get?_insert, get?]
    by_cases hs : s = path
    · -- the new path is nowhere but at the end
      subst hs
      rw [if_pos rfl, Option.some.injEq, Array.getElem?_push]
      constructor
      · rintro rfl
        rw [if_pos rfl]
      · intro hq
        split at hq
        · rename_i hend
          cases q
          exact congrArg PathId.mk hend.symm
        · exact absurd (Array.mem_of_getElem? hq) hnew
    · rw [if_neg hs, h s q, get?, Array.getElem?_push]
      split
      · rename_i hend
        rw [hend, Array.getElem?_eq_none (Nat.le_refl _), Option.some.injEq]
        exact ⟨nofun, fun hpath => absurd hpath.symm hs⟩
      · rfl

/-- A path is found under the name it was given. -/
theorem get?_intern (h : ps.Inverse) (path : String) :
    (ps.intern path).2.get? (ps.intern path).1 = some path := by
  rcases h.intern_cases path with ⟨p, hp, heq⟩ | ⟨-, heq⟩
  · rw [heq]
    exact hp
  · rw [heq, get?]
    exact Array.getElem?_push_size

/-- No path has two names. -/
theorem nodup (h : ps.Inverse) : ps.entries.toList.Nodup := by
  rw [List.nodup_iff_getElem?_ne_getElem?]
  intro i j hij hj heq
  obtain ⟨s, hs⟩ : ∃ s, ps.entries.toList[j]? = some s := ⟨_, List.getElem?_eq_getElem hj⟩
  have hi := (h s ⟨i⟩).2 (get?_eq_some.2 (heq.trans hs))
  have hj := (h s ⟨j⟩).2 (get?_eq_some.2 hs)
  rw [hi, Option.some.injEq, PathId.mk.injEq] at hj
  omega

end Inverse

/-- What a name stands for does not change. -/
theorem get?_intern_of_get? (h : ps.get? p = some s) (path : String) :
    (ps.intern path).2.get? p = some s := by
  unfold intern
  split
  · exact h
  · have hlt : p.index < ps.entries.size := (Array.getElem?_eq_some_iff.1 h).1
    rw [get?, Array.getElem?_push_lt hlt, ← Array.getElem?_eq_getElem hlt]
    exact h

/-! ## Sequences of calls -/

theorem internAll_cons (ps : Paths) (path : String) (rest : List String) :
    ps.internAll (path :: rest) = ((ps.intern path).1 :: ((ps.intern path).2.internAll rest).1,
      ((ps.intern path).2.internAll rest).2) := rfl

theorem Inverse.internAll (h : ps.Inverse) (paths : List String) :
    (ps.internAll paths).2.Inverse := by
  induction paths generalizing ps with
  | nil => exact h
  | cons path rest ih => exact ih (h.intern path)

theorem get?_internAll_of_get? (h : ps.get? p = some s) (paths : List String) :
    (ps.internAll paths).2.get? p = some s := by
  induction paths generalizing ps with
  | nil => exact h
  | cons path rest ih => exact ih (get?_intern_of_get? h path)

/-- The answer of each call names its path, after that call and after all later ones. -/
theorem Inverse.get?_internAll {paths : List String} {i k : Nat} (h : ps.Inverse)
    (hp : (ps.internAll paths).1[i]? = some p) (hs : paths[i]? = some s) (hk : i < k) :
    (ps.internAll (paths.take k)).2.get? p = some s := by
  induction paths generalizing ps i k with
  | nil => cases hs
  | cons path rest ih =>
    obtain ⟨k, rfl⟩ : ∃ n, k = n + 1 := ⟨k - 1, by omega⟩
    rw [internAll_cons] at hp
    rw [List.take_succ_cons, internAll_cons]
    cases i with
    | zero =>
      cases hp
      cases hs
      exact get?_internAll_of_get? (h.get?_intern _) _
    | succ i => exact ih (h.intern path) hp hs (by omega)

/-- The entries grow by the paths that are new, in order of first occurrence. -/
theorem Inverse.entries_internAll (h : ps.Inverse) (paths : List String) :
    (ps.internAll paths).2.entries.toList =
      ps.entries.toList ++ (paths.removeAll ps.entries.toList).eraseDups := by
  induction paths generalizing ps with
  | nil => simp [Paths.internAll, List.removeAll]
  | cons path rest ih =>
    rw [internAll_cons]
    dsimp only
    rw [ih (h.intern path)]
    rcases h.intern_cases path with ⟨p, hpath, heq⟩ | ⟨hnew, heq⟩
    · have hmem : path ∈ ps.entries.toList :=
        List.mem_of_getElem? (get?_eq_some.1 hpath)
      rw [heq, List.cons_removeAll, if_neg (by simpa using hmem)]
    · -- a path that is new is met here for the first time
      have hnew' : path ∉ ps.entries.toList := fun hmem => hnew (Array.mem_toList_iff.1 hmem)
      have hrest : rest.removeAll (ps.entries.toList ++ [path]) =
          (rest.removeAll ps.entries.toList).filter fun x => !x == path := by
        simp only [List.removeAll, List.filter_filter]
        refine List.filter_congr fun x _ => ?_
        rw [Bool.eq_iff_iff]
        simp [and_comm]
      rw [heq, List.cons_removeAll, if_pos (by simpa using hnew'), List.eraseDups_cons,
        Array.toList_push, hrest, List.append_assoc]
      rfl

theorem length_internAll (ps : Paths) (paths : List String) :
    (ps.internAll paths).1.length = paths.length := by
  induction paths generalizing ps with
  | nil => rfl
  | cons path rest ih => exact congrArg (· + 1) (ih _)

/-! ## From the empty table -/

theorem entries_empty (paths : List String) :
    (empty.internAll paths).2.entries.toList = paths.eraseDups := by
  rw [inverse_empty.entries_internAll]
  simp [empty, List.removeAll]

theorem nodup_eraseDups (paths : List String) : paths.eraseDups.Nodup := by
  rw [← entries_empty]
  exact (inverse_empty.internAll paths).nodup

/-- A call answers with the place of its path among the first occurrences. -/
theorem index_internAll {paths : List String} {i : Nat}
    (hp : (empty.internAll paths).1[i]? = some p) (hs : paths[i]? = some s) :
    p = ⟨paths.eraseDups.idxOf s⟩ := by
  have hi : i < paths.length := (List.getElem?_eq_some_iff.1 hs).1
  have hget := inverse_empty.get?_internAll hp hs hi
  rw [List.take_length, get?_eq_some, entries_empty] at hget
  obtain ⟨hlt, rfl⟩ := List.getElem?_eq_some_iff.1 hget
  rw [(nodup_eraseDups paths).idxOf_getElem]

theorem names_internAll (paths : List String) :
    (empty.internAll paths).1 = paths.map fun s => ⟨paths.eraseDups.idxOf s⟩ := by
  apply List.ext_getElem?
  intro i
  rw [List.getElem?_map]
  cases hs : paths[i]? with
  | none =>
    rw [List.getElem?_eq_none_iff, ← length_internAll empty] at hs
    exact List.getElem?_eq_none hs
  | some s =>
    have hi : i < (empty.internAll paths).1.length := by
      rw [length_internAll]
      exact (List.getElem?_eq_some_iff.1 hs).1
    rw [List.getElem?_eq_getElem hi, index_internAll (List.getElem?_eq_getElem hi) hs]
    rfl

/-- Equal places among the first occurrences are those of equal paths. -/
theorem idxOf_inj {paths : List String} {t : String} (hs : s ∈ paths)
    (h : paths.eraseDups.idxOf s = paths.eraseDups.idxOf t) : s = t :=
  (List.idxOf_inj (List.mem_eraseDups.2 hs)).1 h

/-- After every call of a sequence that starts with nothing, the table and the entries are
inverse to each other.  Two paths get the same name just if they are equal.  The names are
`0, 1, 2, …` in order of first occurrence, and from the call that answers with a name on, the
name stands for the path of that call. -/
theorem internAll_bijective (paths : List String) :
    (∀ (k : Nat) (path : String) (p : PathId),
      (empty.internAll (paths.take k)).2.table.get? path = some p ↔
        (empty.internAll (paths.take k)).2.get? p = some path) ∧
    (empty.internAll paths).1 = paths.map (fun s => ⟨paths.eraseDups.idxOf s⟩) ∧
    (empty.internAll paths).1.eraseDups =
      (List.range paths.eraseDups.length).map PathId.mk ∧
    ∀ {i j : Nat} {p q : PathId} {s t : String},
      (empty.internAll paths).1[i]? = some p → paths[i]? = some s →
      (empty.internAll paths).1[j]? = some q → paths[j]? = some t →
        (p = q ↔ s = t) ∧
        ∀ k, i < k → (empty.internAll (paths.take k)).2.get? p = some s := by
  refine ⟨fun k => inverse_empty.internAll (paths.take k), names_internAll paths, ?_,
    fun hp hs hq ht => ⟨?_, fun k hk => ?_⟩⟩
  · have hinj : ∀ s ∈ paths, ∀ t ∈ paths, PathId.mk (paths.eraseDups.idxOf s) =
        ⟨paths.eraseDups.idxOf t⟩ → s = t :=
      fun s hs t _ h => idxOf_inj hs (PathId.mk.inj h)
    rw [names_internAll, eraseDups_map hinj]
    apply List.ext_getElem
    · simp
    · intro i hi _
      rw [List.length_map] at hi
      simp [(nodup_eraseDups paths).idxOf_getElem i hi]
  · rw [index_internAll hp hs, index_internAll hq ht, PathId.mk.injEq]
    exact ⟨idxOf_inj (List.mem_of_getElem? hs), fun h => by rw [h]⟩
  · exact inverse_empty.get?_internAll hp hs hk

/-- The third call meets its path again and answers as the first one did.  The empty path is a
path like any other. -/
theorem internAll_bijective_again :
    (empty.internAll ["b", "a", "b", ""]).1 = [⟨0⟩, ⟨1⟩, ⟨0⟩, ⟨2⟩] ∧
    (empty.internAll ["b", "a"]).2.table.get? "a" = some ⟨1⟩ ∧
    ((⟨0⟩ : PathId) = ⟨0⟩ ↔ "b" = "b") ∧ ((⟨1⟩ : PathId) = ⟨2⟩ ↔ "a" = "") ∧
    (empty.internAll ["b", "a", "b"]).2.get? ⟨1⟩ = some "a" := by
  have hnames : (empty.internAll ["b", "a", "b", ""]).1 = [⟨0⟩, ⟨1⟩, ⟨0⟩, ⟨2⟩] := by decide +kernel
  obtain ⟨hinverse, -, -, hcalls⟩ := internAll_bijective ["b", "a", "b", ""]
  rw [hnames] at hcalls
  obtain ⟨hsame, -⟩ := @hcalls 0 2 ⟨0⟩ ⟨0⟩ "b" "b" rfl rfl rfl rfl
  obtain ⟨hother, hget⟩ := @hcalls 1 3 ⟨1⟩ ⟨2⟩ "a" "" rfl rfl rfl rfl
  exact ⟨hnames, (hinverse 2 "a" ⟨1⟩).2 (hget 2 (by decide)), hsame, hother, hget 3 (by decide)⟩

end Paths

end Peephole
