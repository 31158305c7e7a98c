-- What the list of modules tells of the mapped files. Every mapping is a line of the map, with
-- blanks between the columns, and the path is the last column as it stands. A reader that takes
-- columns takes a path for what stands before its first blank, so the list has one module for each
-- such beginning; it is right for all files just if none of their paths has a blank.
import Detouring.Memory.MapLine
import Mathlib.Data.List.Induction
import Mathlib.Data.List.Nodup
import Mathlib.Data.List.TakeWhile
import Mathlib.Order.Bounds.Basic
import Mathlib.Order.Lattice

namespace Detouring

/-! ## Modules of files -/

/-- The regions of the file that a path leads to, if this is how regions tell their file. -/
def regionsOf (file? : Region → Option String) (regions : List Region) (path : String) :
    Set Region :=
  {r | r ∈ regions ∧ (file? r).map Module.pathNames = some (Module.pathNames path)}

/-- A module goes from the lowest start of some regions to their highest end. -/
structure Module.Spans (m : Module) (regions : Set Region) : Prop where
  lowest : IsLeast (Region.start '' regions) m.base
  highest : IsGreatest (Region.stop '' regions) (m.base + m.size)

/-- The names that lead to the file of a module. -/
def Module.names (m : Module) : List (List Char) := pathNames m.path

/-- One module for each file, that has a path of the file and spans its regions. -/
structure Inventory (file? : Region → Option String) (regions : List Region)
    (modules : List Module) : Prop where
  once : (modules.map Module.names).Nodup
  files : ∀ r ∈ regions, ∀ path, file? r = some path →
    Module.pathNames path ∈ modules.map Module.names
  paths : ∀ m ∈ modules, ∃ r ∈ regions, file? r = some m.path
  spans : ∀ m ∈ modules, m.Spans (regionsOf file? regions m.path)

section

variable {file? : Region → Option String} {regions : List Region} {modules : List Module}
  {r : Region} {path : String}

theorem regionsOf_snoc (here : (file? r).map Module.pathNames = some (Module.pathNames path)) :
    regionsOf file? (regions ++ [r]) path = regionsOf file? regions path ∪ {r} := by
  ext s
  simp only [regionsOf, List.mem_append, List.mem_singleton, Set.mem_ofPred_eq, Set.mem_union,
    Set.mem_singleton_iff]
  constructor
  · rintro ⟨ms | rfl, there⟩
    · exact Or.inl ⟨ms, there⟩
    · exact Or.inr rfl
  · rintro (⟨ms, there⟩ | rfl)
    · exact ⟨Or.inl ms, there⟩
    · exact ⟨Or.inr rfl, here⟩

theorem regionsOf_snoc_other
    (elsewhere : (file? r).map Module.pathNames ≠ some (Module.pathNames path)) :
    regionsOf file? (regions ++ [r]) path = regionsOf file? regions path := by
  ext s
  simp only [regionsOf, List.mem_append, List.mem_singleton, Set.mem_ofPred_eq]
  constructor
  · rintro ⟨ms | rfl, there⟩
    · exact ⟨ms, there⟩
    · exact absurd there elsewhere
  · exact fun ⟨ms, there⟩ => ⟨Or.inl ms, there⟩

namespace Module

/-- A character that separates no names and is no name stands in one of the names. -/
theorem mem_pathNames {c : Char} (slash : c ≠ '/') (dot : c ≠ '.') :
    (∃ name ∈ pathNames path, c ∈ name) ↔ c ∈ path.toList := by
  have parts (names : List (List Char)) :
      c ∈ ['/'].intercalate names ↔ ∃ name ∈ names, c ∈ name := by
    induction names with
    | nil => simp
    | cons first names ih =>
      cases names with
      | nil => simp
      | cons second names =>
        rw [List.intercalate_cons_cons]
        simp [ih, slash]
  have whole : ['/'].intercalate (path.toList.splitOn '/') = path.toList :=
    List.intercalate_splitOn '/'
  rw [← whole, parts, pathNames]
  simp only [List.mem_filter, decide_eq_true_eq]
  constructor
  · rintro ⟨name, ⟨mn, -⟩, mc⟩
    exact ⟨name, mn, mc⟩
  · rintro ⟨name, mn, mc⟩
    refine ⟨name, ⟨mn, List.ne_nil_of_mem mc, ?_⟩, mc⟩
    rintro rfl
    exact dot (List.mem_singleton.mp mc)

/-- The module of a file with one more region. -/
def extend (m : Module) (r : Region) : Module :=
  ⟨m.path, min m.base r.start, max (m.base + m.size) r.stop - min m.base r.start⟩

theorem Spans.extend {m : Module} {some : Set Region} (h : m.Spans some)
    (ordered : r.start ≤ r.stop) : (m.extend r).Spans (some ∪ {r}) := by
  have whole : min m.base r.start + (max (m.base + m.size) r.stop - min m.base r.start) =
      max (m.base + m.size) r.stop := by omega
  constructor
  · rw [Set.image_union, Set.image_singleton]
    exact h.lowest.union isLeast_singleton
  · rw [Set.image_union, Set.image_singleton]
    exact whole.symm ▸ h.highest.union isGreatest_singleton

theorem spans_first (path : String) (ordered : r.start ≤ r.stop) :
    (Module.mk path r.start (r.stop - r.start)).Spans {r} := by
  have whole : r.start + (r.stop - r.start) = r.stop := by omega
  constructor
  · rw [Set.image_singleton]
    exact isLeast_singleton
  · rw [Set.image_singleton]
    exact whole.symm ▸ isGreatest_singleton

theorem names_addRegion (path : String) (r : Region) (modules : List Module) :
    (addRegion path r modules).map names =
      if pathNames path ∈ modules.map names then modules.map names
      else modules.map names ++ [pathNames path] := by
  induction modules with
  | nil => rfl
  | cons m rest ih =>
    by_cases same : pathNames m.path = pathNames path
    · simp [addRegion, same, names]
    · have differs : pathNames path ≠ m.names := Ne.symm same
      rw [addRegion, if_neg same, List.map_cons, ih, List.map_cons]
      by_cases later : pathNames path ∈ rest.map names <;> simp [later, differs]

theorem mem_names_addRegion {other : List (List Char)} :
    other ∈ (addRegion path r modules).map names ↔
      other ∈ modules.map names ∨ other = pathNames path := by
  rw [names_addRegion]
  split
  · rename_i known
    exact ⟨Or.inl, fun h => h.elim id fun same => same ▸ known⟩
  · rw [List.mem_append, List.mem_singleton]

theorem nodup_addRegion (once : (modules.map names).Nodup) :
    ((addRegion path r modules).map names).Nodup := by
  rw [names_addRegion]
  split
  · exact once
  · rename_i fresh
    refine List.nodup_append.mpr ⟨once, List.nodup_singleton _, fun other known last there => ?_⟩
    rw [List.mem_singleton.mp there]
    exact fun same => fresh (same ▸ known)

theorem ofRegions_snoc (regions : List Region) (r : Region) :
    ofRegions (regions ++ [r]) =
      match r.path with
      | some path => addRegion path r (ofRegions regions)
      | none => ofRegions regions := by
  rw [ofRegions, List.foldl_append]
  rfl

/-- A module is another file's, or the first of its file, or one that was extended. -/
theorem mem_addRegion (once : (modules.map names).Nodup) {m : Module}
    (mm : m ∈ addRegion path r modules) :
    (m ∈ modules ∧ m.names ≠ pathNames path) ∨
      (m = ⟨path, r.start, r.stop - r.start⟩ ∧ pathNames path ∉ modules.map names) ∨
      ∃ m' ∈ modules, m'.names = pathNames path ∧ m = m'.extend r := by
  induction modules with
  | nil => exact .inr (.inl ⟨List.mem_singleton.mp mm, List.not_mem_nil⟩)
  | cons n rest ih =>
    obtain ⟨fresh, once⟩ := List.nodup_cons.mp once
    by_cases same : pathNames n.path = pathNames path
    · rw [addRegion, if_pos same] at mm
      rcases List.mem_cons.mp mm with rfl | later
      · exact .inr (.inr ⟨n, List.mem_cons_self, same, rfl⟩)
      · refine .inl ⟨List.mem_cons_of_mem n later, fun again => fresh ?_⟩
        exact (again.trans same.symm : m.names = n.names) ▸ List.mem_map_of_mem later
    · rw [addRegion, if_neg same] at mm
      rcases List.mem_cons.mp mm with rfl | later
      · exact .inl ⟨List.mem_cons_self, same⟩
      · rcases ih once later with ⟨mr, differs⟩ | ⟨rfl, absent⟩ | ⟨m', mr, known, rfl⟩
        · exact .inl ⟨List.mem_cons_of_mem n mr, differs⟩
        · refine .inr (.inl ⟨rfl, ?_⟩)
          rw [List.map_cons, List.mem_cons]
          exact fun h => h.elim (Ne.symm same) absent
        · exact .inr (.inr ⟨m', List.mem_cons_of_mem n mr, known, rfl⟩)

end Module

namespace Inventory

/-- The path of a module was told before, whatever region comes last. -/
theorem paths_snoc (h : Inventory file? regions modules) {m : Module} (mm : m ∈ modules) :
    ∃ s ∈ regions ++ [r], file? s = some m.path :=
  let ⟨s, ms, told⟩ := h.paths m mm
  ⟨s, List.mem_append_left _ ms, told⟩

/-- A region that tells no file leaves the modules as they are. -/
theorem pass (h : Inventory file? regions modules) (none : file? r = none) :
    Inventory file? (regions ++ [r]) modules := by
  refine ⟨h.once, fun s ms path told => ?_, fun m mm => h.paths_snoc mm, fun m mm => ?_⟩
  · rcases List.mem_append.mp ms with ms | last
    · exact h.files s ms path told
    · rw [List.mem_singleton.mp last, none] at told
      cases told
  · rw [regionsOf_snoc_other (by simp [none])]
    exact h.spans m mm

/-- A region is added to the module of its file. -/
theorem add (h : Inventory file? regions modules) (here : file? r = some path)
    (ordered : r.start ≤ r.stop) :
    Inventory file? (regions ++ [r]) (Module.addRegion path r modules) := by
  have named : (file? r).map Module.pathNames = some (Module.pathNames path) := by
    rw [here, Option.map_some]
  refine ⟨Module.nodup_addRegion h.once, fun s ms other told => ?_, fun m mm => ?_,
    fun m mm => ?_⟩
  · rw [Module.mem_names_addRegion]
    rcases List.mem_append.mp ms with ms | last
    · exact Or.inl (h.files s ms other told)
    · rw [List.mem_singleton.mp last, here] at told
      exact Or.inr (congrArg Module.pathNames (Option.some.inj told).symm)
  · rcases Module.mem_addRegion h.once mm with ⟨mm, -⟩ | ⟨rfl, -⟩ | ⟨m', known, -, rfl⟩
    · exact h.paths_snoc mm
    · exact ⟨r, by simp, here⟩
    · obtain ⟨s, ms, told⟩ := h.paths_snoc known
      exact ⟨s, ms, told⟩
  · rcases Module.mem_addRegion h.once mm with ⟨mm, differs⟩ | ⟨rfl, fresh⟩ | ⟨m', known, same, rfl⟩
    · rw [regionsOf_snoc_other (by rw [named]; exact fun h => differs (Option.some.inj h).symm)]
      exact h.spans m mm
    · have empty : regionsOf file? regions path = ∅ := by
        refine Set.eq_empty_of_forall_notMem fun s ⟨ms, there⟩ => ?_
        obtain ⟨other, told, same⟩ := Option.map_eq_some_iff.mp there
        exact fresh (same ▸ h.files s ms other told)
      rw [regionsOf_snoc named, empty, Set.empty_union]
      exact Module.spans_first path ordered
    · have told : (file? r).map Module.pathNames = some (Module.pathNames m'.path) :=
        named.trans (congrArg some same.symm)
      rw [show (m'.extend r).path = m'.path from rfl, regionsOf_snoc told]
      exact (h.spans m' known).extend ordered

end Inventory

/-- The modules that regions make up are those of the files that the regions tell. -/
theorem inventory_ofRegions (ordered : ∀ r ∈ regions, r.start ≤ r.stop) :
    Inventory Region.path regions (Module.ofRegions regions) := by
  induction regions using List.reverseRecOn with
  | nil => exact ⟨List.nodup_nil, nofun, nofun, nofun⟩
  | append_singleton regions r ih =>
    have ih := ih fun s ms => ordered s (List.mem_append_left _ ms)
    have last := ordered r (by simp)
    rw [Module.ofRegions_snoc]
    cases told : r.path with
    | none => exact ih.pass told
    | some path => exact ih.add told last

end

/-! ## Lines of the map -/

namespace Region

/-- Words with blanks behind each of them. -/
inductive Spaced : List (List Char) → List Char → Prop
  | nil : Spaced [] []
  | cons {word gap text : List Char} {words : List (List Char)} (some : word ≠ [])
      (solid : ∀ c ∈ word, isBlank c = false) (wide : gap ≠ [])
      (blank : ∀ c ∈ gap, isBlank c = true) (rest : Spaced words text) :
      Spaced (word :: words) (word ++ gap ++ text)

/-- Hexadecimal digits of a number, perhaps with zeros in front. -/
def Spells (n : Nat) (text : List Char) : Prop :=
  ∃ zeros, text = List.replicate zeros '0' ++ Nat.toDigits 16 n

/-- A line that tells of a region: its two ends, its permissions, an offset, a device and a file
number, each with blanks behind it, and its path with all blanks that it has. Only a line break in
the path is written in another way. -/
def Tells (r : Region) (line : List Char) : Prop :=
  ∃ first last offset device inode text, Spells r.start first ∧ Spells r.stop last ∧
    Spaced [first ++ '-' :: last, r.permissionText, offset, device, inode] text ∧
    line = text ++ pathText (r.path.getD "").toList

variable {r : Region} {words : List (List Char)} {gap text first last line : List Char} {n : Nat}

theorem columns_gap (blank : ∀ c ∈ gap, isBlank c = true) (s : List Char) :
    columns (gap ++ s) = columns s := by
  induction gap with
  | nil => rfl
  | cons b gap ih =>
    rw [List.cons_append, columns, if_pos (blank b List.mem_cons_self)]
    exact ih fun c mc => blank c (List.mem_cons_of_mem b mc)

/-- The columns of a text are the words in front, and those of the rest. -/
theorem columns_spaced (h : Spaced words text) (s : List Char) :
    columns (text ++ s) = words ++ columns s := by
  induction h with
  | nil => rfl
  | @cons word gap text words some solid wide blank rest ih =>
    obtain ⟨b, gap, rfl⟩ := List.exists_cons_of_ne_nil wide
    have others : ∀ c ∈ gap, isBlank c = true := fun c mc => blank c (List.mem_cons_of_mem b mc)
    rw [List.append_assoc, List.append_assoc, List.cons_append,
      columns_word word _ b solid some (blank b List.mem_cons_self), columns_gap others, ih,
      List.cons_append]

theorem Spells.hexValue? (h : Spells n text) {c : Char} (mc : c ∈ text) :
    (Region.hexValue? c).isSome := by
  obtain ⟨zeros, rfl⟩ := h
  rcases List.mem_append.mp mc with zero | digit
  · rw [List.eq_of_mem_replicate zero]
    rfl
  · exact hexValue?_of_mem_toDigits digit

/-- Zeros in front do not count. -/
theorem Spells.readHex? (h : Spells n text) : Region.readHex? text = some n := by
  obtain ⟨zeros, rfl⟩ := h
  induction zeros with
  | zero => exact readHex?_toDigits n
  | succ zeros ih =>
    have some : List.replicate zeros '0' ++ Nat.toDigits 16 n ≠ [] := by
      intro none
      rw [none] at ih
      cases ih
    rw [Region.readHex?, if_neg some] at ih
    rw [Region.readHex?, List.replicate_succ, List.cons_append, if_neg (List.cons_ne_nil _ _),
      readMore?]
    exact ih

theorem readRange?_of_spells (low : Spells r.start first) (high : Spells r.stop last) :
    readRange? (first ++ '-' :: last) = some (r.start, r.stop) := by
  obtain ⟨front, rest⟩ := takeWhile_append_cons (p := (· != '-')) first last '-'
    (fun c mc => ne_dash_of_hexValue? (low.hexValue? mc)) (by decide)
  rw [readRange?, rest, front]
  simp [low.readHex?, high.readHex?]

/-- Every line that tells of a region is read in the same way. -/
theorem ofLine?_of_tells (h : r.Tells line) : ofLine? line = some r.listed := by
  obtain ⟨first, last, offset, device, inode, text, low, high, spaced, rfl⟩ := h
  have range := readRange?_of_spells low high
  have shown := columns_spaced spaced (pathText (r.path.getD "").toList)
  obtain ⟨_, _, ⟨read, write, execute⟩, isPrivate, _⟩ := r
  simp only [ofLine?, shown, permissionText, Protection.letters, List.cons_append,
    List.nil_append, range, Option.map_some, listed]
  cases read <;> cases write <;> cases execute <;> cases isPrivate <;> rfl

theorem filterMap_ofLine? {regions : List Region} {lines : List (List Char)}
    (tell : List.Forall₂ Tells regions lines) :
    lines.filterMap ofLine? = regions.map listed := by
  induction tell with
  | nil => rfl
  | cons tells _ ih => rw [List.filterMap_cons, ofLine?_of_tells tells, ih, List.map_cons]

theorem Spaced.word {word : List Char} (some : word ≠ []) (solid : ∀ c ∈ word, isBlank c = false)
    (rest : Spaced words text) : Spaced (word :: words) (word ++ [' '] ++ text) :=
  .cons some solid (by decide) (List.forall_mem_singleton.mpr rfl) rest

/-- The map has a line for each of its regions. -/
theorem tells_line (r : Region) : r.Tells r.line := by
  have zero {words : List (List Char)} {text : List Char} (rest : Spaced words text) :
      Spaced (['0'] :: words) (['0'] ++ [' '] ++ text) :=
    .word (by decide) (List.forall_mem_singleton.mpr rfl) rest
  have permissions : Spaced [r.permissionText, ['0'], ['0'], ['0']] _ :=
    .word (by simp [permissionText]) (fun _ => isBlank_of_mem_permissionText)
      (zero (zero (zero .nil)))
  have range : Spaced [r.rangeText, r.permissionText, ['0'], ['0'], ['0']] _ :=
    .word (by simp [rangeText]) (fun _ => isBlank_of_mem_rangeText) permissions
  refine ⟨Nat.toDigits 16 r.start, Nat.toDigits 16 r.stop, ['0'], ['0'], ['0'], _, ⟨0, rfl⟩,
    ⟨0, rfl⟩, range, ?_⟩
  simp [line]

/-! ## Files and their paths -/

/-- The file behind a region, by its path. Other names that are listed in its place do not begin
with a slash. -/
def file? (r : Region) : Option String := r.path.filter fun path => path.toList.head? == some '/'

/-- A path as it is listed, as far as it goes without a blank. -/
def beforeBlank (path : String) : String :=
  String.ofList ((pathText path.toList).takeWhile fun c => !isBlank c)

/-- A region as a system keeps it: it has a byte, and what is listed as its path begins with no
blank. -/
structure Proper (r : Region) : Prop where
  nonempty : r.start < r.stop
  solid : ∀ c ∈ (r.path.getD "").toList.head?, isBlank c = false

/-- The path that is read is that of a file, up to its first blank. -/
theorem path_listed (proper : r.Proper) : r.listed.path = r.file?.map beforeBlank := by
  have solid := proper.solid
  rw [listed, file?]
  cases named : r.path with
  | none => rfl
  | some path =>
    rw [named, Option.getD_some] at solid
    rw [Option.getD_some]
    cases letters : path.toList with
    | nil => simp [letters, pathText, columns, readPath?]
    | cons c rest =>
      have hc := solid c (by rw [letters]; rfl)
      have breaks : c ≠ '\n' := by
        rintro rfl
        cases hc
      have shown : pathText (c :: rest) = c :: pathText rest := by simp [pathText, breaks]
      have front : ((c :: pathText rest).takeWhile fun x => !isBlank x).head? = some c := by
        rw [List.takeWhile_cons_of_pos (by rw [hc]; rfl), List.head?_cons]
      rw [shown, head?_columns c _ hc, readPath?, Option.filter, Option.filter, front, letters,
        List.head?_cons]
      split
      · rw [Option.map_some, Option.map_some, beforeBlank, letters, shown]
      · rfl

/-- No blank is left in front of the first one. -/
theorem isBlank_of_mem_beforeBlank {path : String} {c : Char} (mc : c ∈ (beforeBlank path).toList) :
    isBlank c = false := by
  rw [beforeBlank, String.toList_ofList] at mc
  simpa using List.mem_takeWhile_imp mc

/-- A path without blanks is read as it is. -/
theorem beforeBlank_eq {path : String} (solid : ∀ c ∈ path.toList, isBlank c = false) :
    beforeBlank path = path := by
  have shown : pathText path.toList = path.toList := by
    rw [pathText, List.flatMap_congr (g := fun c => [c]), List.flatMap_singleton']
    intro c mc
    refine if_neg fun breaks => ?_
    rw [breaks] at mc
    cases solid _ mc
  rw [beforeBlank, shown, List.takeWhile_eq_self_iff.mpr (by simpa using solid),
    String.ofList_toList]

/-- That no path of a file has a blank, as it can be computed. -/
theorem solid_of_all {regions : List Region}
    (h : (regions.all fun r => r.file?.all fun path => path.toList.all (!isBlank ·)) = true) :
    ∀ r ∈ regions, ∀ path, r.file? = some path → ∀ c ∈ path.toList, isBlank c = false := by
  intro r mr path told c mc
  have all := List.all_eq_true.mp h r mr
  rw [told, Option.all_some, List.all_eq_true] at all
  simpa using all c mc

end Region

/-! ## The law of the list -/

section

variable {file? file?' : Region → Option String} {regions : List Region} {modules : List Module}

theorem Inventory.congr (same : ∀ r ∈ regions, file? r = file?' r)
    (h : Inventory file? regions modules) : Inventory file?' regions modules := by
  have sets (path : String) : regionsOf file? regions path = regionsOf file?' regions path := by
    ext r
    exact and_congr_right fun mr => by rw [same r mr]
  refine ⟨h.once, fun r mr path told => ?_, fun m mm => ?_, by simpa only [sets] using h.spans⟩
  · exact h.files r mr path ((same r mr).trans told)
  · obtain ⟨r, mr, told⟩ := h.paths m mm
    exact ⟨r, mr, (same r mr).symm.trans told⟩

/-- What is listed of the regions tells of the regions. -/
theorem Inventory.of_listed (h : Inventory Region.path (regions.map Region.listed) modules) :
    Inventory (fun r => r.listed.path) regions modules := by
  have sets (path : String) : regionsOf Region.path (regions.map Region.listed) path =
      Region.listed '' regionsOf (fun r => r.listed.path) regions path := by
    ext r
    simp only [regionsOf, List.mem_map, Set.mem_ofPred_eq, Set.mem_image]
    constructor
    · rintro ⟨⟨s, ms, rfl⟩, told⟩
      exact ⟨s, ⟨ms, told⟩, rfl⟩
    · rintro ⟨s, ⟨ms, told⟩, rfl⟩
      exact ⟨⟨s, ms, rfl⟩, told⟩
  refine ⟨h.once, fun r mr path told => ?_, fun m mm => ?_, fun m mm => ?_⟩
  · exact h.files r.listed (List.mem_map_of_mem mr) path told
  · obtain ⟨_, ml, told⟩ := h.paths m mm
    obtain ⟨r, mr, rfl⟩ := List.mem_map.mp ml
    exact ⟨r, mr, told⟩
  · have whole := h.spans m mm
    rw [sets] at whole
    have lowest := whole.lowest
    have highest := whole.highest
    rw [Set.image_image] at lowest highest
    exact ⟨lowest, highest⟩

/-- What is read from the lines of the map has one module for each path up to its first blank. -/
theorem inventory_of_lines {lines : List (List Char)} (proper : ∀ r ∈ regions, r.Proper)
    (tell : List.Forall₂ Region.Tells regions lines) :
    Inventory (fun r => r.file?.map Region.beforeBlank) regions
      (Module.ofRegions (lines.filterMap Region.ofLine?)) := by
  rw [Region.filterMap_ofLine? tell]
  have ordered : ∀ r ∈ regions.map Region.listed, r.start ≤ r.stop := by
    simp only [List.forall_mem_map]
    exact fun r mr => (proper r mr).nonempty.le
  have listed := (inventory_ofRegions ordered).of_listed
  exact listed.congr fun r mr => Region.path_listed (proper r mr)

/-- One list tells both files and their beginnings only if no path has a blank. -/
theorem Inventory.solid (h : Inventory Region.file? regions modules)
    (h' : Inventory (fun r => r.file?.map Region.beforeBlank) regions modules) :
    ∀ r ∈ regions, ∀ path, r.file? = some path → ∀ c ∈ path.toList, Region.isBlank c = false := by
  intro r mr path told c mc
  by_contra blank
  have slash : c ≠ '/' := by
    rintro rfl
    exact blank (by decide)
  have dot : c ≠ '.' := by
    rintro rfl
    exact blank (by decide)
  obtain ⟨m, mm, same⟩ := List.mem_map.mp (h.files r mr path told)
  obtain ⟨s, -, told'⟩ := h'.paths m mm
  obtain ⟨path', -, cut⟩ := Option.map_eq_some_iff.mp told'
  have among : c ∈ m.path.toList := by
    rw [← Module.mem_pathNames slash dot] at mc ⊢
    rw [← same] at mc
    exact mc
  exact blank (Region.isBlank_of_mem_beforeBlank (cut ▸ among))

end

/-- For all regions and all lines that tell of them, the modules that are read are those of the
files as far as their paths go without a blank: one for each such beginning, from the lowest start
of its regions to the highest end. They are those of the files themselves just if no path of a file
has a blank, or a line break. -/
theorem files_are_told_up_to_a_blank {regions : List Region} {lines : List (List Char)}
    (proper : ∀ r ∈ regions, r.Proper) (tell : List.Forall₂ Region.Tells regions lines) :
    Inventory (fun r => r.file?.map Region.beforeBlank) regions
        (Module.ofRegions (lines.filterMap Region.ofLine?)) ∧
      (Inventory Region.file? regions (Module.ofRegions (lines.filterMap Region.ofLine?)) ↔
        ∀ r ∈ regions, ∀ path, r.file? = some path →
          ∀ c ∈ path.toList, Region.isBlank c = false) := by
  have told := inventory_of_lines proper tell
  refine ⟨told, fun all => all.solid told, fun solid => told.congr fun r mr => ?_⟩
  cases named : r.file? with
  | none => rfl
  | some path => rw [Option.map_some, Region.beforeBlank_eq (solid r mr path named)]

/-- Two files of which one lies between the regions of the other, and the heap. -/
def interleaved : List Region :=
  [⟨0x1000, 0x2000, ⟨true, false, true⟩, true, some "/lib/a"⟩,
    ⟨0x2000, 0x3000, ⟨true, false, false⟩, true, some "/lib/b"⟩,
    ⟨0x4000, 0x5000, ⟨true, true, false⟩, true, some "/lib/a"⟩,
    ⟨0x6000, 0x8000, ⟨true, true, false⟩, true, some "[heap]"⟩]

theorem interleaved_files_are_told :
    (∀ r ∈ interleaved, r.Proper) ∧
      List.Forall₂ Region.Tells interleaved (interleaved.map Region.line) ∧
      (∀ r ∈ interleaved, ∀ path, r.file? = some path →
        ∀ c ∈ path.toList, Region.isBlank c = false) ∧
      Inventory Region.file? interleaved
        (Module.ofRegions ((interleaved.map Region.line).filterMap Region.ofLine?)) := by
  have proper : ∀ r ∈ interleaved, r.Proper := by
    simp only [interleaved, List.forall_mem_cons]
    exact ⟨⟨by decide, by simp [Region.isBlank]⟩, ⟨by decide, by simp [Region.isBlank]⟩,
      ⟨by decide, by simp [Region.isBlank]⟩, ⟨by decide, by simp [Region.isBlank]⟩, nofun⟩
  have tell : List.Forall₂ Region.Tells interleaved (interleaved.map Region.line) :=
    List.forall₂_map_right_iff.mpr (List.forall₂_same.mpr fun r _ => r.tells_line)
  have solid : ∀ r ∈ interleaved, ∀ path, r.file? = some path →
      ∀ c ∈ path.toList, Region.isBlank c = false :=
    Region.solid_of_all (by decide +kernel)
  exact ⟨proper, tell, solid, (files_are_told_up_to_a_blank proper tell).2.mpr solid⟩

/-- Two files whose paths are alike up to a blank. -/
def alike : List Region :=
  [⟨0x1000, 0x2000, ⟨true, false, true⟩, true, some "/a b"⟩,
    ⟨0x3000, 0x4000, ⟨true, false, false⟩, true, some "/a c"⟩]

/-- They are told as one, and by a path that neither of them has. -/
theorem two_files_are_taken_for_one :
    (∀ r ∈ alike, r.Proper) ∧ List.Forall₂ Region.Tells alike (alike.map Region.line) ∧
      Module.ofRegions ((alike.map Region.line).filterMap Region.ofLine?) =
        [⟨"/a", 0x1000, 0x3000⟩] ∧
      ¬ Inventory Region.file? alike
        (Module.ofRegions ((alike.map Region.line).filterMap Region.ofLine?)) := by
  have proper : ∀ r ∈ alike, r.Proper := by
    simp only [alike, List.forall_mem_cons]
    exact ⟨⟨by decide, by simp [Region.isBlank]⟩, ⟨by decide, by simp [Region.isBlank]⟩, nofun⟩
  have tell : List.Forall₂ Region.Tells alike (alike.map Region.line) :=
    List.forall₂_map_right_iff.mpr (List.forall₂_same.mpr fun r _ => r.tells_line)
  have told : Module.ofRegions ((alike.map Region.line).filterMap Region.ofLine?) =
      [⟨"/a", 0x1000, 0x3000⟩] := by
    decide +kernel
  refine ⟨proper, tell, told, fun all => ?_⟩
  have among := all.files _ List.mem_cons_self "/a b" rfl
  rw [told] at among
  revert among
  decide

end Detouring
