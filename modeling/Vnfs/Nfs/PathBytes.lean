import Vnfs.Nfs.Namespace

/-!
Components of paths. The byte functions of a path are determined by its non-empty
components: trimming and joining keep them, the lexical normalization drops dots,
and a split takes off the last one.
-/

namespace Vnfs

open List

@[simp] theorem pathComponents_nil : pathComponents [] = [] := rfl

@[simp] theorem pathComponents_append_slash (front back : Bytes) :
    pathComponents (front ++ slash :: back) = pathComponents front ++ pathComponents back := by
  rw [pathComponents, splitOn_append_cons_self, filter_append]
  rfl

@[simp] theorem pathComponents_slash_cons (path : Bytes) :
    pathComponents (slash :: path) = pathComponents path :=
  pathComponents_append_slash [] path

@[simp] theorem pathComponents_concat_slash (path : Bytes) :
    pathComponents (path ++ [slash]) = pathComponents path := by
  rw [pathComponents_append_slash, pathComponents_nil, append_nil]

theorem pathComponents_dropWhile (path : Bytes) :
    pathComponents (path.dropWhile (· = slash)) = pathComponents path := by
  induction path with
  | nil => rfl
  | cons byte path ih =>
    rw [dropWhile_cons]
    split
    · rename_i hsl
      obtain rfl : byte = slash := by simpa using hsl
      rw [ih, pathComponents_slash_cons]
    · rfl

theorem pathComponents_dropWhile_reverse (path : Bytes) :
    pathComponents (path.dropWhile (· = slash)).reverse = pathComponents path.reverse := by
  induction path with
  | nil => rfl
  | cons byte path ih =>
    rw [dropWhile_cons]
    split
    · rename_i hsl
      obtain rfl : byte = slash := by simpa using hsl
      rw [ih, reverse_cons, pathComponents_concat_slash]
    · rfl

@[simp] theorem pathComponents_trimSlashes (path : Bytes) :
    pathComponents (trimSlashes path) = pathComponents path := by
  unfold trimSlashes
  rw [pathComponents_dropWhile_reverse, reverse_reverse, pathComponents_dropWhile]

theorem slash_not_mem_splitOn (path : Bytes) :
    ∀ component ∈ path.splitOn slash, slash ∉ component := by
  induction path with
  | nil => simp [splitOn_nil]
  | cons byte path ih =>
    rw [splitOn_cons_eq_if_modifyHead]
    split
    · intro component hc
      rcases mem_cons.mp hc with rfl | hr
      · exact not_mem_nil
      · exact ih component hr
    rename_i hb
    cases hs : path.splitOn slash with
    | nil => exact absurd hs (splitOn_ne_nil slash path)
    | cons head rest =>
      rw [hs] at ih
      intro component hc
      rcases mem_cons.mp hc with rfl | hr
      · have hne : byte ≠ slash := by simpa using hb
        rw [mem_cons, not_or]
        exact ⟨hne.symm, ih head mem_cons_self⟩
      · exact ih component (mem_cons_of_mem _ hr)

variable {path component : Bytes}

theorem mem_pathComponents (h : component ∈ pathComponents path) :
    component ≠ [] ∧ slash ∉ component := by
  obtain ⟨hm, hs⟩ := mem_filter.mp h
  exact ⟨by simpa using hs, slash_not_mem_splitOn path component hm⟩

theorem pathComponents_singleton (hs : component ≠ []) (hsl : slash ∉ component) :
    pathComponents component = [component] := by
  rw [pathComponents, splitOn_eq_singleton hsl, filter_cons_of_pos (by simpa using hs), filter_nil]

theorem reverse_trimSlashes_head (path : Bytes) :
    (trimSlashes path).reverse.head? ≠ some slash := by
  unfold trimSlashes
  rw [reverse_reverse]
  intro hh
  have hn := head?_dropWhile_not (fun byte => decide (byte = slash))
    (path.dropWhile (· = slash)).reverse
  rw [hh] at hn
  simp at hn

theorem eq_of_findIdx?_reverse {behind : Nat} (h : path.reverse.findIdx? (· = slash) = some behind)
    :
    path = path.take (path.length - behind - 1) ++ slash :: path.drop (path.length - behind) ∧
      slash ∉ path.drop (path.length - behind) ∧ behind < path.length := by
  obtain ⟨hlt, hsl, hbe⟩ := findIdx?_eq_some_iff_getElem.mp h
  rw [length_reverse] at hlt
  rw [getElem_reverse, decide_eq_true_eq] at hsl
  refine ⟨?_, ?_, hlt⟩
  · have hs := take_append_drop (path.length - behind - 1) path
    rw [drop_eq_getElem_cons (by omega)] at hs
    have hid : path.length - 1 - behind = path.length - behind - 1 := by omega
    have hne : path.length - behind - 1 + 1 = path.length - behind := by omega
    simp only [hid] at hsl
    rw [hsl, hne] at hs
    exact hs.symm
  intro hm
  obtain ⟨i, hi, hb⟩ := mem_iff_getElem.mp hm
  rw [length_drop] at hi
  rw [getElem_drop] at hb
  have hn := hbe (behind - 1 - i) (by omega)
  rw [getElem_reverse, decide_eq_true_eq] at hn
  apply hn
  rw [← hb]
  congr 1
  omega

theorem splitPathBytes_components {dir name : Bytes} (h : splitPathBytes path = some (dir, name)) :
    pathComponents path = pathComponents dir ++ [name] := by
  unfold splitPathBytes at h
  dsimp only at h
  split at h
  · cases h
  rename_i hs
  have hn : ∀ front back, trimSlashes path = front ++ slash :: back → back ≠ [] := by
    rintro front back heq rfl
    apply reverse_trimSlashes_head path
    simp [heq]
  rw [← pathComponents_trimSlashes path]
  split at h
  · rename_i behind hf
    obtain ⟨rfl, rfl⟩ := Prod.mk.inj (Option.some.inj h)
    obtain ⟨heq, hsl, -⟩ := eq_of_findIdx?_reverse hf
    rw [heq, pathComponents_append_slash, pathComponents_singleton (hn _ _ heq) hsl,
      ← heq, pathComponents_trimSlashes]
  rename_i hf
  obtain ⟨rfl, rfl⟩ := Prod.mk.inj (Option.some.inj h)
  rw [findIdx?_eq_none_iff] at hf
  apply pathComponents_singleton
  · simpa using hs
  · intro hm
    simpa using hf slash (mem_reverse.mpr hm)

namespace Nfs

variable {parts : List Bytes} {part : Bytes} {components : List Bytes} {path : Bytes}
  {mount : Mount} {file : FileOperand}

theorem splitOn_joinComponents (h : ∀ part ∈ parts, part ≠ [] ∧ slash ∉ part) (hne : parts ≠ []) :
    (joinComponents parts).splitOn slash = parts :=
  splitOn_intercalate slash (fun part hp => (h part hp).2) hne

theorem pathComponents_joinComponents (h : ∀ part ∈ parts, part ≠ [] ∧ slash ∉ part) :
    pathComponents (joinComponents parts) = parts := by
  cases parts with
  | nil => rfl
  | cons part rest =>
    rw [pathComponents, splitOn_joinComponents h (cons_ne_nil _ _), filter_eq_self]
    exact fun part hp => by simpa using (h part hp).1

theorem nil_mem_splitOn (h : path.head? = some slash ∨ path.getLast? = some slash) :
    [] ∈ path.splitOn slash := by
  rcases h with h | h
  · obtain ⟨rest, rfl⟩ := head?_eq_some_iff.mp h
    rw [← nil_append (slash :: rest), splitOn_append_cons_self]
    exact mem_append_left _ mem_cons_self
  · obtain ⟨front, rfl⟩ := getLast?_eq_some_iff.mp h
    rw [splitOn_append_cons_self]
    exact mem_append_right _ mem_cons_self

theorem joinComponents_ends (h : ∀ part ∈ parts, part ≠ [] ∧ slash ∉ part) :
    (joinComponents parts).head? ≠ some slash ∧ (joinComponents parts).getLast? ≠ some slash := by
  rw [← not_or]
  intro he
  by_cases hne : parts = []
  · rw [hne] at he
    rcases he with he | he <;> cases he
  · have hn := nil_mem_splitOn he
    rw [splitOn_joinComponents h hne] at hn
    exact (h [] hn).1 rfl

theorem normalizeStep_mem {component : Bytes} (h : part ∈ normalizeStep parts component) :
    part ∈ parts ∨ part = component ∧ component ≠ [] ∧ component ≠ [46] ∧ component ≠ [46, 46] := by
  unfold normalizeStep at h
  split at h
  · exact .inl h
  rename_i hpl
  rw [not_or] at hpl
  split at h
  · exact .inl (dropLast_subset parts h)
  rename_i hd
  rcases mem_append.mp h with hold | hn
  · exact .inl hold
  · exact .inr ⟨mem_singleton.mp hn, hpl.1, hpl.2, hd⟩

theorem foldl_normalizeStep_mem (h : part ∈ components.foldl normalizeStep parts) :
    part ∈ parts ∨ part ∈ components ∧ part ≠ [] ∧ part ≠ [46] ∧ part ≠ [46, 46] := by
  induction components generalizing parts with
  | nil => exact .inl h
  | cons component components ih =>
    rcases ih h with hs | ⟨hm, hpl⟩
    · rcases normalizeStep_mem hs with hold | ⟨rfl, hpl⟩
      · exact .inl hold
      · exact .inr ⟨mem_cons_self, hpl⟩
    · exact .inr ⟨mem_cons_of_mem _ hm, hpl⟩

theorem foldl_normalizeStep_filter (components parts : List Bytes) :
    (components.filter fun component => !component.isEmpty).foldl normalizeStep parts =
      components.foldl normalizeStep parts := by
  induction components generalizing parts with
  | nil => rfl
  | cons component components ih =>
    rw [filter_cons]
    split
    · exact ih _
    · rename_i he
      obtain rfl : component = [] := by simpa using he
      exact ih parts

theorem pathComponents_normalizeBytes (path : Bytes) :
    pathComponents (normalizeBytes path) = (pathComponents path).foldl normalizeStep [] := by
  rw [← pathComponents_trimSlashes path]
  unfold normalizeBytes
  rw [pathComponents_joinComponents]
  · exact (foldl_normalizeStep_filter _ []).symm
  intro part hp
  rcases foldl_normalizeStep_mem hp with hn | ⟨hm, hs, -⟩
  · cases hn
  · exact ⟨hs, slash_not_mem_splitOn _ part hm⟩

theorem normalizeBytes_eq (path : Bytes) :
    normalizeBytes path = joinComponents ((pathComponents path).foldl normalizeStep []) := by
  rw [← pathComponents_trimSlashes path]
  exact congrArg joinComponents (foldl_normalizeStep_filter _ []).symm

/-- No component is a dot or two. -/
def PlainPath (path : Bytes) : Prop :=
  ∀ component ∈ pathComponents path, component ≠ [46] ∧ component ≠ [46, 46]

theorem plainPath_normalizeBytes (path : Bytes) : PlainPath (normalizeBytes path) := by
  intro component hc
  rw [pathComponents_normalizeBytes] at hc
  rcases foldl_normalizeStep_mem hc with hn | ⟨-, -, hpl⟩
  · cases hn
  · exact hpl

theorem foldl_normalizeStep_plain (parts : List Bytes)
    (h : ∀ component ∈ components, component ≠ [] ∧ component ≠ [46] ∧ component ≠ [46, 46]) :
    components.foldl normalizeStep parts = parts ++ components := by
  induction components generalizing parts with
  | nil => exact (append_nil parts).symm
  | cons component components ih =>
    obtain ⟨hs, hdo, hd⟩ := h component mem_cons_self
    have hst : normalizeStep parts component = parts ++ [component] := by
      rw [normalizeStep, if_neg (not_or.mpr ⟨hs, hdo⟩), if_neg hd]
    rw [foldl_cons, hst, ih _ fun c hc => h c (mem_cons_of_mem _ hc),
      append_assoc, singleton_append]

theorem PlainPath.normalizeBytes (h : PlainPath path) :
    pathComponents (normalizeBytes path) = pathComponents path := by
  rw [pathComponents_normalizeBytes]
  apply foldl_normalizeStep_plain
  exact fun component hc =>
    ⟨(mem_pathComponents hc).1, h component hc⟩

theorem pathComponents_joinPathBytes (dir name : Bytes) :
    pathComponents (joinPathBytes dir name) = pathComponents dir ++ pathComponents name := by
  unfold joinPathBytes
  split
  · rename_i he
    obtain rfl : dir = [] := by simpa using he
    rfl
  split
  · rename_i hen
    obtain ⟨front, rfl⟩ := getLast?_eq_some_iff.mp hen
    rw [append_assoc, singleton_append, pathComponents_append_slash, pathComponents_concat_slash]
  · rw [pathComponents_append_slash]

/-- What a path leads to from the root, by a stack with the last component on top: a dot stays,
two dots go up, and at the root they stay too. -/
def reduceFrom : List Bytes → List Bytes → List Bytes
  | stack, [] => stack.reverse
  | stack, component :: components =>
    if component = [46] then reduceFrom stack components
    else if component = [46, 46] then reduceFrom stack.tail components
    else reduceFrom (component :: stack) components

theorem foldl_normalizeStep_eq (h : ∀ component ∈ components, component ≠ []) :
    components.foldl normalizeStep parts = reduceFrom parts.reverse components := by
  induction components generalizing parts with
  | nil => exact (reverse_reverse parts).symm
  | cons component components ih =>
    have hc := h component mem_cons_self
    rw [foldl_cons, ih fun other hm => h other (mem_cons_of_mem _ hm), reduceFrom, normalizeStep]
    by_cases hd : component = [46]
    · rw [if_pos (.inr hd), if_pos hd]
    · rw [if_neg (not_or.mpr ⟨hc, hd⟩), if_neg hd]
      split
      · rw [tail_reverse]
      · rw [reverse_append, reverse_singleton, singleton_append]

def componentsBytes (path : Bytes) : List Bytes :=
  ((trimSlashes path).splitOn slash).filter fun component => !component.isEmpty

theorem componentsBytes_eq (path : Bytes) : componentsBytes path = pathComponents path :=
  pathComponents_trimSlashes path

theorem normalizeBytes_join (p q : Bytes) :
    normalizeBytes (joinPathBytes p q) = normalizeBytes (joinPathBytes (normalizeBytes p) q) := by
  rw [normalizeBytes_eq, normalizeBytes_eq, pathComponents_joinPathBytes,
    pathComponents_joinPathBytes, foldl_append, foldl_append, ← pathComponents_normalizeBytes p,
    ← pathComponents_normalizeBytes (normalizeBytes p), (plainPath_normalizeBytes p).normalizeBytes]

theorem normalizeBytes_components (h : normalizeBytes path ≠ []) :
    ∀ component ∈ (normalizeBytes path).splitOn slash,
      component ≠ [] ∧ component ≠ [46] ∧ component ≠ [46, 46] := by
  have hp := normalizeBytes_eq path
  rw [← pathComponents_normalizeBytes] at hp
  intro component hc
  rw [hp, splitOn_joinComponents fun part hm => mem_pathComponents hm] at hc
  · exact ⟨(mem_pathComponents hc).1, plainPath_normalizeBytes path component hc⟩
  · intro hn
    rw [hn] at hp
    exact h hp

theorem normalizeBytes_ends (path : Bytes) :
    (normalizeBytes path).head? ≠ some slash ∧ (normalizeBytes path).getLast? ≠ some slash := by
  rw [normalizeBytes_eq, ← pathComponents_normalizeBytes]
  exact joinComponents_ends fun part hp => mem_pathComponents hp

/-- Normalization is the reduction of the components, a split is undone by a join, and what is
joined may be normalized first. -/
theorem path_algebra :
    (∀ p, normalizeBytes (normalizeBytes p) = normalizeBytes p ∧
      (normalizeBytes p).head? ≠ some slash ∧ (normalizeBytes p).getLast? ≠ some slash ∧
      (normalizeBytes p ≠ [] → ∀ component ∈ (normalizeBytes p).splitOn slash,
        component ≠ [] ∧ component ≠ [46] ∧ component ≠ [46, 46]) ∧
      componentsBytes (normalizeBytes p) = reduceFrom [] (componentsBytes p)) ∧
    (∀ p d n, splitPathBytes p = some (d, n) →
      slash ∉ n ∧ componentsBytes (joinPathBytes d n) = componentsBytes p) ∧
    ∀ p q, normalizeBytes (joinPathBytes p q) =
      normalizeBytes (joinPathBytes (normalizeBytes p) q) := by
  refine ⟨fun p => ⟨?_, (normalizeBytes_ends p).1, (normalizeBytes_ends p).2,
    normalizeBytes_components, ?_⟩, fun p d n h => ?_, normalizeBytes_join⟩
  · rw [normalizeBytes_eq (normalizeBytes p), ← pathComponents_normalizeBytes,
      (plainPath_normalizeBytes p).normalizeBytes, pathComponents_normalizeBytes,
      ← normalizeBytes_eq]
  · rw [componentsBytes_eq, componentsBytes_eq, pathComponents_normalizeBytes]
    exact foldl_normalizeStep_eq fun component hc => (mem_pathComponents hc).1
  · have hp := splitPathBytes_components h
    have hn : n ∈ pathComponents p := by
      rw [hp]
      exact mem_append_right _ mem_cons_self
    obtain ⟨hne, hsl⟩ := mem_pathComponents hn
    refine ⟨hsl, ?_⟩
    rw [componentsBytes_eq, componentsBytes_eq, pathComponents_joinPathBytes, hp,
      pathComponents_singleton hne hsl]

theorem PlainPath.joinPath {base : Bytes} (hba : PlainPath base) (hp : PlainPath path) :
    PlainPath (joinPath base path) := by
  unfold Nfs.joinPath
  split
  · exact hp
  split
  · rename_i he
    rcases eq_nil_or_concat base with rfl | ⟨front, last, rfl⟩
    · exact hp
    rw [concat_eq_append] at he hba ⊢
    obtain rfl : last = slash := by simpa using he
    intro component hc
    rw [append_assoc, singleton_append, pathComponents_append_slash] at hc
    rcases mem_append.mp hc with hfr | hb
    · exact hba component ((pathComponents_concat_slash front).symm ▸ hfr)
    · exact hp component hb
  intro component hc
  rw [pathComponents_append_slash] at hc
  rcases mem_append.mp hc with hfr | hb
  · exact hba component hfr
  · exact hp component hb

section

variable {σ : Type} {server : NameServer σ}

theorem NameServer.resolve_ok {s : σ} {path : Bytes} {d : NfsFh}
    (h : server.walk s server.root (pathComponents path) = .ok d) :
    server.resolve s path = .ok d := by
  rw [NameServer.resolve, h]
  rfl

end

end Nfs

end Vnfs
