import Mathlib.Data.List.Flatten
import ServerPack.Proofs.FileSystem.Follows

/-!
How paths are written. The names of a path that lies in another one are the names of that one and
one more (`names_child`), and the path without its last part leads through the same names, leaving
out those that stay where they are, and is not longer (`exists_parent`).
-/

namespace ServerPack.Text

variable {α : Type} {separator : α}

/-- Pieces without the separator are what a split of them gives. -/
theorem split_join [DecidableEq α] {pieces : List (List α)}
    (hpieces : ∀ piece ∈ pieces, separator ∉ piece) (hne : pieces ≠ []) :
    split separator (join separator pieces) = pieces := by
  induction pieces with
  | nil => exact absurd rfl hne
  | cons piece rest ih =>
      have hpiece := split_eq_singleton (hpieces piece List.mem_cons_self)
      cases rest with
      | nil => exact hpiece
      | cons next more =>
          rw [join, split_append, hpiece, ih (fun other hother =>
            hpieces other (List.mem_cons_of_mem _ hother)) (by simp)]
          · rfl
          · simp

/-- Pieces without the separator can be told from what they are joined to. -/
theorem join_inj [DecidableEq α] {pieces pieces' : List (List α)}
    (hpieces : ∀ piece ∈ pieces, separator ∉ piece) (hpieces' : ∀ piece ∈ pieces', separator ∉ piece)
    (hne : pieces ≠ []) (hne' : pieces' ≠ []) (h : join separator pieces = join separator pieces') :
    pieces = pieces' := by
  rw [← split_join hpieces hne, h, split_join hpieces' hne']

theorem not_mem_of_mem_split [DecidableEq α] {l piece : List α} (h : piece ∈ split separator l) :
    separator ∉ piece := by
  induction l generalizing piece with
  | nil =>
      rw [split, List.mem_singleton] at h
      simp [h]
  | cons a rest ih =>
      obtain ⟨first, more, hsplit⟩ := List.exists_cons_of_ne_nil (split_ne_nil separator rest)
      have hfirst : separator ∉ first := ih (hsplit ▸ List.mem_cons_self)
      rw [split, hsplit] at h
      split at h
      · rcases List.mem_cons.1 h with rfl | h
        · simp
        · exact ih (hsplit ▸ h)
      · next ha =>
        rcases List.mem_cons.1 h with rfl | h
        · exact fun hmem => (List.mem_cons.1 hmem).elim (fun heq => ha heq.symm) hfirst
        · exact ih (hsplit ▸ List.mem_cons_of_mem _ h)

theorem mem_of_mem_join {a : α} {pieces : List (List α)} (h : a ∈ join separator pieces) :
    a = separator ∨ ∃ piece ∈ pieces, a ∈ piece := by
  induction pieces with
  | nil => simp [join] at h
  | cons piece rest ih =>
      cases rest with
      | nil => exact .inr ⟨piece, List.mem_cons_self, h⟩
      | cons next more =>
          rw [join, List.mem_append, List.mem_cons] at h
          · rcases h with h | h | h
            · exact .inr ⟨piece, List.mem_cons_self, h⟩
            · exact .inl h
            · refine (ih h).imp_right ?_
              rintro ⟨other, hother, ha⟩
              exact ⟨other, List.mem_cons_of_mem _ hother, ha⟩
          · simp

theorem mem_join_of_mem {a : α} {piece : List α} {pieces : List (List α)} (hpiece : piece ∈ pieces)
    (ha : a ∈ piece) :
    a ∈ join separator pieces := by
  induction pieces with
  | nil => cases hpiece
  | cons first rest ih =>
      cases rest with
      | nil =>
          rw [List.mem_singleton.1 hpiece] at ha
          exact ha
      | cons next more =>
          rw [join, List.mem_append, List.mem_cons]
          · rcases List.mem_cons.1 hpiece with rfl | hpiece
            · exact .inl ha
            · exact .inr (.inr (ih hpiece))
          · simp

theorem join_append_separator {pieces : List (List α)} (hne : pieces ≠ []) :
    join separator pieces ++ [separator] = pieces.flatMap (· ++ [separator]) := by
  induction pieces with
  | nil => exact absurd rfl hne
  | cons piece rest ih =>
      cases rest with
      | nil => simp [join]
      | cons next more =>
          rw [List.flatMap_cons, ← ih (by simp), join]
          · simp
          · simp

theorem length_join_le_of_sublist {pieces pieces' : List (List α)} (h : pieces.Sublist pieces') :
    (join separator pieces).length ≤ (join separator pieces').length := by
  by_cases hne : pieces = []
  · simp [hne, join]
  have hne' : pieces' ≠ [] := by
    rintro rfl
    exact hne (List.sublist_nil.1 h)
  have hlength := (h.flatMap (· ++ [separator])).length_le
  rw [← join_append_separator hne, ← join_append_separator hne', List.length_append,
    List.length_append] at hlength
  exact Nat.le_of_add_le_add_right hlength

end ServerPack.Text

namespace ServerPack.Path

/-- A name that stands for an entry of a directory. -/
structure Plain (name : Name) : Prop where
  ne_nil : name ≠ []
  no_slash : slash ∉ name
  ne_dot : name ≠ dot
  ne_dotDot : name ≠ dotDot

instance (name : Name) : Decidable (Plain name) :=
  decidable_of_iff (name ≠ [] ∧ slash ∉ name ∧ name ≠ dot ∧ name ≠ dotDot)
    ⟨fun ⟨hnil, hslash, hdot, hdotDot⟩ => ⟨hnil, hslash, hdot, hdotDot⟩,
      fun h => ⟨h.ne_nil, h.no_slash, h.ne_dot, h.ne_dotDot⟩⟩

/-- A path that can be followed at all. -/
structure Usable (path : Path) : Prop where
  ne_nil : path.bytes ≠ []
  no_nul : 0 ∉ path.bytes
  short : path.bytes.length ≤ maxLength

theorem ne_nil_of_mem_names {path : Path} {name : Name} (h : name ∈ path.names) : name ≠ [] := by
  simpa using (List.mem_filter.1 h).2

theorem no_slash_of_mem_names {path : Path} {name : Name} (h : name ∈ path.names) : slash ∉ name :=
  Text.not_mem_of_mem_split (List.mem_filter.1 h).1

theorem no_slash_of_mem_steps {path : Path} {name : Name} (h : name ∈ path.steps) : slash ∉ name := by
  rw [steps] at h
  rcases List.mem_append.1 h with h | h
  · exact no_slash_of_mem_names h
  · split at h
    · rw [List.mem_singleton.1 h]
      simp
    · cases h

@[simp] theorem trimmed_steps (path : Path) :
    FileTree.trimmed path.steps = FileTree.trimmed path.names := by
  rw [steps, FileTree.trimmed_append]
  split <;> simp [FileTree.trimmed]

/-! A path in another one. -/

section Child

variable {base : Path} {name : Name}

theorem child_bytes (hname : slash ∉ name) :
    (base.child name).bytes =
      if base.bytes = [] ∨ base.endsWithSlash then base.bytes ++ name else base.bytes ++ slash :: name := by
  have hrelative : ¬(⟨name⟩ : Path).isAbsolute = true := by
    intro h
    have hhead : name.head? = some slash := by simpa [isAbsolute] using h
    exact hname (List.mem_of_mem_head? hhead)
  rw [child, join, if_neg hrelative]
  split <;> rfl

theorem length_le_child (hname : slash ∉ name) :
    base.bytes.length + name.length ≤ (base.child name).bytes.length := by
  rw [child_bytes hname]
  split <;> simp only [List.length_append, List.length_cons] <;> omega

theorem names_child (hname : Plain name) : (base.child name).names = base.names ++ [name] := by
  have hsingle : Text.split slash name = [name] := Text.split_eq_singleton hname.no_slash
  have hfilter : [name].filter (· ≠ []) = [name] := by simp [hname.ne_nil]
  rw [names, child_bytes hname.no_slash, names]
  by_cases hempty : base.bytes = []
  · rw [if_pos (.inl hempty), hempty, List.nil_append, hsingle, hfilter]
    rfl
  by_cases hslash : base.endsWithSlash
  · obtain ⟨front, hfront⟩ : ∃ front, base.bytes = front ++ [slash] :=
      List.getLast?_eq_some_iff.1 (by simpa [endsWithSlash] using hslash)
    rw [if_pos (.inr hslash), hfront, List.append_assoc, List.singleton_append, Text.split_append, hsingle,
      List.filter_append, hfilter, Text.split_append, List.filter_append]
    simp [Text.split]
  · rw [if_neg (not_or.2 ⟨hempty, hslash⟩), Text.split_append, hsingle, List.filter_append, hfilter]

theorem child_bytes_ne_nil (hname : Plain name) : (base.child name).bytes ≠ [] := by
  have hnames : (base.child name).names = base.names ++ [name] := names_child hname
  intro hempty
  rw [names, hempty] at hnames
  simp [Text.split] at hnames

theorem isAbsolute_child (hname : Plain name) : (base.child name).isAbsolute = base.isAbsolute := by
  rw [isAbsolute, child_bytes hname.no_slash, isAbsolute]
  cases hbytes : base.bytes with
  | nil =>
      rw [if_pos (.inl rfl), List.nil_append]
      have hhead : name.head? ≠ some slash := fun h => hname.no_slash (List.mem_of_mem_head? h)
      simpa using hhead
  | cons b rest => split <;> simp

theorem endsWithSlash_child (hname : Plain name) : (base.child name).endsWithSlash = false := by
  have hlast : name.getLast? ≠ some slash := fun h => hname.no_slash (List.mem_of_getLast? h)
  obtain ⟨b, rest, rfl⟩ := List.exists_cons_of_ne_nil hname.ne_nil
  rw [endsWithSlash, child_bytes hname.no_slash]
  split <;> simpa [List.getLast?_append] using hlast

theorem child_child_bytes (hname : Plain name) {other : Name} (hother : slash ∉ other) :
    ((base.child name).child other).bytes = (base.child name).bytes ++ slash :: other := by
  rw [child_bytes hother, if_neg]
  simp [child_bytes_ne_nil hname, endsWithSlash_child hname]

/-- Where an entry of a directory can be followed the directory can. -/
theorem Usable.of_child (h : (base.child name).Usable) (hname : slash ∉ name)
    (hne : base.bytes ≠ []) : base.Usable := by
  have hbegins : base.bytes <+: (base.child name).bytes := by
    rw [child_bytes hname]
    split <;> exact List.prefix_append _ _
  exact ⟨hne, fun hnul => h.no_nul (hbegins.subset hnul), Nat.le_trans hbegins.length_le h.short⟩

/-- Two names behind a path may be replaced by two that are not longer. -/
theorem Usable.child_child {name' other other' : Name} (h : ((base.child name).child other).Usable)
    (hname : Plain name) (hother : slash ∉ other) (hname' : Plain name') (hother' : slash ∉ other')
    (hnul : 0 ∉ name') (hnul' : 0 ∉ other')
    (hlength : name'.length + other'.length ≤ name.length + other.length) :
    ((base.child name').child other').Usable := by
  obtain ⟨-, hno, hshort⟩ := h
  rw [child_child_bytes hname hother, child_bytes hname.no_slash] at hno hshort
  have hbytes : ((base.child name').child other').bytes = _ := child_child_bytes hname' hother'
  rw [child_bytes hname'.no_slash] at hbytes
  refine ⟨by simp [hbytes], ?_, ?_⟩ <;> rw [hbytes]
  · split at hno <;> simp_all
  · split at hshort <;> simp_all <;> omega

end Child

/-! The path without its last part. -/

/-- The parts of a path in front of its names. -/
def lead (path : Path) : List Component :=
  if path.isAbsolute then [.root]
  else if (Text.split slash path.bytes).head? = some dot then [.current]
  else []

@[simp] theorem bytes_ofName (name : Name) : (Component.ofName name).bytes = name := by
  rw [Component.ofName]
  split
  · next h => exact h.symm
  · rfl

theorem ofName_ne_root (name : Name) : Component.ofName name ≠ .root := by
  rw [Component.ofName]
  split <;> simp

theorem map_bytes_ofName (names : List Name) :
    (names.map Component.ofName).map Component.bytes = names := by
  simp [List.map_map, Function.comp_def]

theorem components_eq (path : Path) :
    path.components = path.lead ++ (FileTree.trimmed path.names).map Component.ofName := by
  have htrimmed : FileTree.trimmed path.names = path.names.filter (· ≠ dot) := by
    refine List.filter_congr fun name hname => ?_
    simp [ne_nil_of_mem_names hname]
  rw [components, lead, htrimmed]
  split
  · rfl
  · split <;> rfl

/-- A name in a path leaves the front of the path as it is. -/
theorem lead_child {base : Path} {name : Name} (hname : Plain name) :
    (base.child name).lead = base.lead := by
  have hhead : ∀ front rest : Bytes, (Text.split slash (front ++ slash :: rest)).head? =
      (Text.split slash front).head? := by
    intro front rest
    obtain ⟨piece, pieces, hsplit⟩ := List.exists_cons_of_ne_nil (Text.split_ne_nil slash front)
    rw [Text.split_append, hsplit]
    rfl
  have hfirst : ((Text.split slash (base.child name).bytes).head? = some dot) =
      ((Text.split slash base.bytes).head? = some dot) := by
    rw [child_bytes hname.no_slash]
    by_cases hempty : base.bytes = []
    · rw [if_pos (.inl hempty), hempty, List.nil_append, Text.split_eq_singleton hname.no_slash]
      refine propext (iff_of_false (fun h => hname.ne_dot (Option.some.inj h)) ?_)
      simp [Text.split, dot]
    by_cases hslash : base.endsWithSlash
    · obtain ⟨front, hfront⟩ : ∃ front, base.bytes = front ++ [slash] :=
        List.getLast?_eq_some_iff.1 (by simpa [endsWithSlash] using hslash)
      rw [if_pos (.inr hslash), hfront, List.append_assoc, List.singleton_append, hhead, hhead]
    · rw [if_neg (not_or.2 ⟨hempty, hslash⟩), hhead]
  simp only [lead, isAbsolute_child hname, hfirst]

theorem components_child {base : Path} {name : Name} (hname : Plain name) :
    (base.child name).components = base.components ++ [.entry name] := by
  rw [components_eq, components_eq, lead_child hname, names_child hname, FileTree.trimmed_append,
    FileTree.trimmed_singleton hname.ne_nil hname.ne_dot, List.map_append, List.map_singleton,
      Component.ofName,
    if_neg hname.ne_dotDot, List.append_assoc]

theorem lastName?_child {base : Path} {name : Name} (hname : Plain name) :
    (base.child name).lastName? = some name := by
  rw [lastName?, components_child hname, List.getLast?_concat]

/-- The last part of a path is a name if this is the last name that counts. -/
theorem lastName?_eq_some_iff {path : Path} {name : Name} :
    path.lastName? = some name ↔ (FileTree.trimmed path.names).getLast? = some name ∧ name ≠ dotDot := by
  rw [lastName?, components_eq]
  rcases List.eq_nil_or_concat (FileTree.trimmed path.names) with hnil | ⟨init, last, hlast⟩
  · have hlead : path.lead.getLast? = none ∨ path.lead.getLast? = some .root ∨
        path.lead.getLast? = some .current := by
      rw [lead]
      split
      · exact .inr (.inl rfl)
      · split
        · exact .inr (.inr rfl)
        · exact .inl rfl
    rw [hnil, List.map_nil, List.append_nil]
    rcases hlead with hlead | hlead | hlead <;> rw [hlead] <;> simp
  · rw [List.concat_eq_append] at hlast
    rw [hlast, List.map_append, List.map_singleton, ← List.append_assoc, List.getLast?_concat,
      List.getLast?_concat, Component.ofName]
    by_cases hdotDot : last = dotDot
    · subst hdotDot
      rw [if_pos rfl]
      refine iff_of_false (by simp) ?_
      rintro ⟨heq, hne⟩
      exact hne (Option.some.inj heq).symm
    · rw [if_neg hdotDot]
      constructor
      · intro heq
        cases heq
        exact ⟨rfl, hdotDot⟩
      · rintro ⟨heq, -⟩
        exact heq

/-- The bytes of a path whose parts are the front of another one and some of its names. -/
theorem ofComponents_bytes (path : Path) (names : List Name) :
    (ofComponents (path.lead ++ names.map Component.ofName)).bytes =
      if path.isAbsolute then slash :: Text.join slash names
      else Text.join slash (path.lead.map Component.bytes ++ names) := by
  rw [lead]
  split
  · rw [List.singleton_append, ofComponents, map_bytes_ofName]
  · split
    · simp [ofComponents, Function.comp_def]
    · cases names with
      | nil => rfl
      | cons name rest =>
          rw [List.nil_append, List.map_cons, ofComponents, ← List.map_cons, map_bytes_ofName]
          · rfl
          · exact fun _ h => ofName_ne_root name (List.cons.inj h).1

theorem split_of_isAbsolute {path : Path} (h : path.isAbsolute) :
    ∃ rest, path.bytes = slash :: rest ∧ path.names = (Text.split slash rest).filter (· ≠ []) := by
  obtain ⟨rest, hrest⟩ := List.head?_eq_some_iff.1
    (show path.bytes.head? = some slash by simpa [isAbsolute] using h)
  exact ⟨rest, hrest, by simp [names, hrest, Text.split]⟩

/-- The front of a relative path and its names are among its pieces, in order. -/
theorem lead_append_trimmed_sublist {path : Path} (h : ¬path.isAbsolute) :
    (path.lead.map Component.bytes ++ FileTree.trimmed path.names).Sublist
      (Text.split slash path.bytes) := by
  obtain ⟨first, more, hsplit⟩ := List.exists_cons_of_ne_nil (Text.split_ne_nil slash path.bytes)
  have htrimmed : (FileTree.trimmed path.names).Sublist path.names := List.filter_sublist
  have hnames : path.names.Sublist (Text.split slash path.bytes) := List.filter_sublist
  rw [lead, if_neg h, hsplit]
  by_cases hfirst : first = dot
  · subst hfirst
    simp only [List.head?_cons, if_true, List.map_cons, List.map_nil, List.singleton_append]
    refine List.Sublist.cons_cons _ ?_
    have hmore : FileTree.trimmed path.names = FileTree.trimmed (more.filter (· ≠ [])) := by
      rw [names, hsplit, List.filter_cons_of_pos (by decide), FileTree.trimmed,
        List.filter_cons_of_neg (by decide)]
      rfl
    rw [hmore]
    exact List.filter_sublist.trans List.filter_sublist
  · simp only [List.head?_cons, Option.some.injEq, hfirst, if_false, List.map_nil, List.nil_append]
    exact hsplit ▸ htrimmed.trans hnames

/-- Pieces with slashes between them are names again. -/
theorem names_join {pieces : List Name} (hpieces : ∀ piece ∈ pieces, piece ≠ [] ∧ slash ∉ piece) :
    (Text.split slash (Text.join slash pieces)).filter (· ≠ []) = pieces := by
  by_cases hne : pieces = []
  · subst hne
    rfl
  · rw [Text.split_join (fun piece hpiece => (hpieces piece hpiece).2) hne]
    exact List.filter_eq_self.2 fun piece hpiece => by simpa using (hpieces piece hpiece).1

theorem head?_join {piece : Name} {pieces : List Name} (hpiece : piece ≠ []) :
    (Text.join slash (piece :: pieces)).head? = piece.head? := by
  obtain ⟨b, rest, rfl⟩ := List.exists_cons_of_ne_nil hpiece
  cases pieces <;> rfl

/-- Some pieces of a path with slashes between them are not longer than the path and hold no other
bytes. -/
theorem usable_join {pieces : List Name} {bytes : Bytes}
    (hsublist : pieces.Sublist (Text.split slash bytes)) (hnul : 0 ∉ bytes) :
    0 ∉ Text.join slash pieces ∧ (Text.join slash pieces).length ≤ bytes.length := by
  constructor
  · intro h
    rcases Text.mem_of_mem_join h with h | ⟨piece, hpiece, h⟩
    · cases h
    · refine hnul ?_
      rw [← Text.join_split slash bytes]
      exact Text.mem_join_of_mem (hsublist.subset hpiece) h
  · have hlength : (Text.join slash pieces).length ≤ (Text.join slash (Text.split slash bytes)).length :=
      Text.length_join_le_of_sublist hsublist
    rwa [Text.join_split] at hlength

theorem pieces_of_sublist {path : Path} {names : List Name}
    (hnames : names.Sublist (FileTree.trimmed path.names)) :
    ∀ piece ∈ names, piece ≠ [] ∧ slash ∉ piece := fun piece hpiece =>
  have hmem : piece ∈ path.names := (List.mem_filter.1 (hnames.subset hpiece)).1
  ⟨ne_nil_of_mem_names hmem, no_slash_of_mem_names hmem⟩

/-- In front of the names of a relative path is a `.` or nothing. -/
theorem map_bytes_lead {path : Path} (h : ¬path.isAbsolute) :
    path.lead.map Component.bytes = [] ∨ path.lead.map Component.bytes = [dot] := by
  rw [lead, if_neg h]
  split
  · exact .inr rfl
  · exact .inl rfl

theorem pieces_of_lead {path : Path} (h : ¬path.isAbsolute) {names : List Name}
    (hnames : names.Sublist (FileTree.trimmed path.names)) :
    ∀ piece ∈ path.lead.map Component.bytes ++ names, piece ≠ [] ∧ slash ∉ piece := by
  intro piece hpiece
  rcases List.mem_append.1 hpiece with hpiece | hpiece
  · rcases map_bytes_lead h with hlead | hlead <;> rw [hlead] at hpiece
    · cases hpiece
    · rw [List.mem_singleton.1 hpiece]
      decide
  · exact pieces_of_sublist hnames piece hpiece

/-- Its names are those, but for a `.` in front of them. -/
theorem names_ofComponents {path : Path} {names : List Name}
    (hnames : names.Sublist (FileTree.trimmed path.names)) :
    ∃ dots, FileTree.trimmed dots = [] ∧
      (ofComponents (path.lead ++ names.map Component.ofName)).names = dots ++ names := by
  rw [Path.names, ofComponents_bytes]
  by_cases habsolute : path.isAbsolute
  · refine ⟨[], rfl, ?_⟩
    rw [if_pos habsolute, Text.split, if_pos rfl, List.filter_cons_of_neg (by simp),
      names_join (pieces_of_sublist hnames), List.nil_append]
  · refine ⟨path.lead.map Component.bytes, ?_, ?_⟩
    · rcases map_bytes_lead habsolute with hlead | hlead <;> rw [hlead] <;> rfl
    · rw [if_neg habsolute, names_join (pieces_of_lead habsolute hnames)]

/-- The path that is put together from the front of another one and some of its names. -/
theorem ofComponents_facts {path : Path} {names : List Name}
    (hnames : names.Sublist (FileTree.trimmed path.names)) :
    let shorter := ofComponents (path.lead ++ names.map Component.ofName)
    shorter.isAbsolute = path.isAbsolute ∧ FileTree.trimmed shorter.names = names ∧
      (path.Usable → shorter.bytes ≠ [] → shorter.Usable) := by
  have htrimmed : FileTree.trimmed names = names := by
    have hidem : FileTree.trimmed (FileTree.trimmed path.names) = FileTree.trimmed path.names := by
      simp [FileTree.trimmed]
    exact List.filter_eq_self.2 fun name hname => List.filter_eq_self.1 hidem name (hnames.subset hname)
  intro shorter
  have hbytes : shorter.bytes = if path.isAbsolute then slash :: Text.join slash names
      else Text.join slash (path.lead.map Component.bytes ++ names) := ofComponents_bytes path names
  have hshorter : FileTree.trimmed shorter.names = names := by
    obtain ⟨dots, hdots, heq⟩ := names_ofComponents hnames
    rw [heq, FileTree.trimmed_append, hdots, htrimmed, List.nil_append]
  by_cases habsolute : path.isAbsolute
  · rw [if_pos habsolute] at hbytes
    obtain ⟨rest, hpath, hrest⟩ := split_of_isAbsolute habsolute
    refine ⟨by rw [habsolute, isAbsolute, hbytes]; simp, hshorter, fun husable hne => ?_⟩
    have hsublist : names.Sublist (Text.split slash rest) :=
      hnames.trans (List.filter_sublist.trans (hrest ▸ List.filter_sublist))
    obtain ⟨hnul, hlength⟩ := usable_join hsublist fun h =>
      husable.no_nul (hpath ▸ List.mem_cons_of_mem _ h)
    refine ⟨hne, ?_, ?_⟩
    · rw [hbytes, List.mem_cons]
      exact not_or.2 ⟨by decide, hnul⟩
    · have hshort := husable.short
      rw [hpath] at hshort
      rw [hbytes]
      exact Nat.le_trans (Nat.succ_le_succ hlength) hshort
  · rw [if_neg habsolute] at hbytes
    refine ⟨?_, hshorter, fun husable hne => ?_⟩
    · rw [Bool.eq_false_iff.2 habsolute, isAbsolute, hbytes, decide_eq_false_iff_not]
      cases hfull : path.lead.map Component.bytes ++ names with
      | nil => simp [Text.join]
      | cons piece more =>
          have hpiece := pieces_of_lead habsolute hnames piece (hfull ▸ List.mem_cons_self)
          rw [head?_join hpiece.1]
          exact fun h => hpiece.2 (List.mem_of_mem_head? h)
    · obtain ⟨hnul, hlength⟩ := usable_join
        (((List.Sublist.refl _).append hnames).trans (lead_append_trimmed_sublist habsolute)) husable.no_nul
      exact ⟨hne, hbytes ▸ hnul, hbytes ▸ Nat.le_trans hlength husable.short⟩

/-- The path without its last part: the empty one for a `.`, or the path without its last name. -/
theorem parent_cases {path parent : Path} (h : path.parent? = some parent) :
    parent = ⟨[]⟩ ∧ ¬path.isAbsolute ∧ FileTree.trimmed path.names = [] ∨
      ∃ init last, FileTree.trimmed path.names = init ++ [last] ∧
        parent = ofComponents (path.lead ++ init.map Component.ofName) := by
  have hcomponents := path.components_eq
  rcases List.eq_nil_or_concat (FileTree.trimmed path.names) with hnil | ⟨init, last, hlast⟩
  · refine .inl ?_
    rw [hnil, List.map_nil, List.append_nil, lead] at hcomponents
    rw [parent?, hcomponents] at h
    by_cases habsolute : path.isAbsolute
    · rw [if_pos habsolute] at h
      cases h
    rw [if_neg habsolute] at h
    by_cases hcurrent : (Text.split slash path.bytes).head? = some dot
    · rw [if_pos hcurrent] at h
      exact ⟨(Option.some.inj h).symm, habsolute, hnil⟩
    · rw [if_neg hcurrent] at h
      cases h
  · rw [List.concat_eq_append] at hlast
    refine .inr ⟨init, last, hlast, ?_⟩
    rw [hlast, List.map_append, List.map_singleton, ← List.append_assoc] at hcomponents
    rw [parent?, hcomponents] at h
    split at h
    · cases h
    · cases h
    · rw [List.dropLast_concat] at h
      exact (Option.some.inj h).symm

/-- The path without its last part begins where the path does and leads through some of its
names. -/
theorem parent_facts {path parent : Path} (h : path.parent? = some parent) :
    parent.isAbsolute = path.isAbsolute ∧
    FileTree.trimmed parent.names <+: FileTree.trimmed path.names := by
  rcases parent_cases h with ⟨rfl, hrelative, hnil⟩ | ⟨init, last, hlast, rfl⟩
  · exact ⟨(Bool.eq_false_iff.2 hrelative).symm, hnil ▸ List.prefix_rfl⟩
  · obtain ⟨habsolute, htrimmed, -⟩ := ofComponents_facts (hlast ▸ List.sublist_append_left init [last])
    rw [htrimmed, hlast]
    exact ⟨habsolute, List.prefix_append _ _⟩

/-- The path without its last part has no names that stay where they are but a `.` in front. -/
theorem names_of_parent {path parent : Path} (h : path.parent? = some parent) :
    ∃ dots, FileTree.trimmed dots = [] ∧ parent.names = dots ++ FileTree.trimmed parent.names := by
  rcases parent_cases h with ⟨rfl, -, -⟩ | ⟨init, last, hlast, rfl⟩
  · exact ⟨[], rfl, rfl⟩
  · have hinit : init.Sublist (FileTree.trimmed path.names) := hlast ▸ List.sublist_append_left init [last]
    rw [(ofComponents_facts hinit).2.1]
    exact names_ofComponents hinit

/-- A path with a name that counts has a path without the last one of them. It begins where the path
does, leads through the same names and can be followed if the path can, unless it is empty. -/
theorem exists_parent {path : Path} {init : List Name} {last : Name}
    (hnames : FileTree.trimmed path.names = init ++ [last]) :
    ∃ parent, path.parent? = some parent ∧ parent.isAbsolute = path.isAbsolute ∧
      FileTree.trimmed parent.names = init ∧ (path.Usable → parent.bytes ≠ [] → parent.Usable) := by
  have hcomponents : path.components = (path.lead ++ init.map Component.ofName) ++
      [Component.ofName last] := by
    rw [components_eq, hnames, List.map_append, List.map_singleton, List.append_assoc]
  refine ⟨ofComponents (path.lead ++ init.map Component.ofName), ?_,
    ofComponents_facts (hnames ▸ List.sublist_append_left _ _)⟩
  rw [parent?, hcomponents]
  split
  · next h => cases (List.append_eq_nil_iff.1 h).2
  · next h =>
    rcases List.append_eq_singleton_iff.1 h with ⟨-, h⟩ | ⟨-, h⟩
    · exact absurd (List.cons.inj h).1 (ofName_ne_root last)
    · cases h
  · rw [List.dropLast_concat]

/-- The directory of an entry has the last name of the path in which the entry is. -/
theorem containingFolder_child {base : Path} {name top : Name} (hname : Plain name)
    (htop : base.lastName? = some top) :
    (base.child name).containingFolder = (nameText top).map some := by
  obtain ⟨hlast, hdotDot⟩ := lastName?_eq_some_iff.1 htop
  have hnames : FileTree.trimmed (base.child name).names = FileTree.trimmed base.names ++ [name] := by
    rw [names_child hname, FileTree.trimmed_append, FileTree.trimmed_singleton hname.ne_nil hname.ne_dot]
  obtain ⟨parent, hparent, -, htrimmed, -⟩ := exists_parent hnames
  have hfolder : parent.lastName? = some top := lastName?_eq_some_iff.2 ⟨htrimmed ▸ hlast, hdotDot⟩
  rw [containingFolder, hparent, Option.bind_some, hfolder]

end ServerPack.Path
