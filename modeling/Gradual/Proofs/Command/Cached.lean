import Gradual.Command.Run
import Gradual.Files.Tree
import Gradual.Proofs.Relations.File
import Gradual.Proofs.Types.Oracle

/-!
Commands that ask a cache tell the same as commands that do not. The tables that commands load have all
their parts, and a cache that was filled in any way is a truthful oracle for them; so a check that ends
without the cache ends alike with it. The rest of a run does not depend on the cache.
-/
namespace Gradual

open Files

theorem Except.of_mapError_eq_ok {f : ε → δ} {x : Except ε α} {a : α} (h : x.mapError f = .ok a) : x = .ok a := by
  cases x with
  | error => cases h
  | ok => cases h; rfl

theorem Table.ofFile_sound [Codec] {path : String} {data : Bytes} {t : Table} (h : Table.ofFile path data = .ok t) :
    t.Sound := by
  unfold Table.ofFile at h
  simp only at h
  split_ifs at h
  · have read := Except.of_mapError_eq_ok h
    unfold Table.ofYaml at read
    split at read
    · cases read
    · exact Document.table_sound (Except.of_mapError_eq_ok read)
  · have read := Except.of_mapError_eq_ok h
    unfold Table.decode at read
    split at read
    · cases read
    · exact CompiledTable.link_sound (Except.of_mapError_eq_ok read)

namespace Command

variable {here session command : String} {colour : Bool} {tree : Tree} {s : Setup} {calls : List Precomputation}
  {names : List String}

def Options.asking (o : Options) : Options := { o with cached := true }

theorem text_asking {name : String} {set : Options → String → Options} (h : settingOf? name = some (.text set))
    (o : Options) (text : String) : set o.asking text = (set o text).asking := by
  obtain ⟨flag, found, same⟩ := Option.map_eq_some_iff.1 h
  have member : flag ∈ flags := List.mem_of_find?_eq_some found
  simp only [flags, List.mem_cons, List.not_mem_nil, or_false] at member
  rcases member with rfl | rfl | rfl | rfl | rfl <;> cases same <;> rfl

/-- Of the switches one is about the cache. -/
theorem switch_asking {name : String} {set : Options → Bool → Options} (h : settingOf? name = some (.switch set))
    (o : Options) (b : Bool) : set o.asking b = (set o b).asking ∨ set o.asking b = set o b := by
  obtain ⟨flag, found, same⟩ := Option.map_eq_some_iff.1 h
  have member : flag ∈ flags := List.mem_of_find?_eq_some found
  simp only [flags, List.mem_cons, List.not_mem_nil, or_false] at member
  rcases member with rfl | rfl | rfl | rfl | rfl <;> cases same
  · exact .inr rfl
  · exact .inl rfl

/-- Flags that are read after the cache was asked for either say otherwise or keep it. -/
theorem parseFlags_asking (args : List String) (o : Options) :
    parseFlags args o.asking = parseFlags args o ∨
      parseFlags args o.asking = (parseFlags args o).map fun (o, rest) => (o.asking, rest) := by
  induction args, o using parseFlags.induct with
  | case1 o => exact .inr rfl
  | case2 o arg rest shape => exact .inr (by simp only [parseFlags, shape]; rfl)
  | case3 o arg rest shape => exact .inr (by simp only [parseFlags, shape]; rfl)
  | case4 o arg rest shape => exact .inl (by simp only [parseFlags, shape])
  | case5 arg rest o name value shape unknown help => exact .inl (by simp only [parseFlags, shape, unknown])
  | case6 arg rest o name value shape unknown help => exact .inl (by simp only [parseFlags, shape, unknown])
  | case7 arg rest o name set known shape ih =>
    simp only [parseFlags, shape, known]
    rcases switch_asking known o true with keeps | decides
    · rwa [keeps]
    · exact .inl (by rw [decides])
  | case8 arg rest o name set known text bad shape => exact .inl (by simp only [parseFlags, shape, known, bad])
  | case9 arg rest o name set known text b good shape ih =>
    simp only [parseFlags, shape, known, good]
    rcases switch_asking known o b with keeps | decides
    · rwa [keeps]
    · exact .inl (by rw [decides])
  | case10 arg o name set known text rest shape ih =>
    simp only [parseFlags, shape, known]
    rwa [text_asking known]
  | case11 arg o name set known text rest shape ih =>
    simp only [parseFlags, shape, known]
    rwa [text_asking known]
  | case12 arg o name set known shape => exact .inl (by simp only [parseFlags, shape, known])

/-- What a run does before its command: it reads the manifest and makes the log file. -/
def prepare [Monad m] (disk : Disk m) (colour : Bool) (o : Options) : m (Except ManifestError Setup) := do
  match ← loadManifest disk o.config with
  | .error e => return .error e
  | .ok manifest =>
    prepareLog disk manifest o.verbose
    return .ok (Setup.ofOptions manifest o colour)

def Setup.asking (s : Setup) : Setup := { s with cached := true }

theorem prepare_asking (here : String) (colour : Bool) (o : Options) (tree : Tree) :
    prepare (Tree.disk here) colour o.asking tree =
      ((prepare (Tree.disk here) colour o tree).1.map Setup.asking, (prepare (Tree.disk here) colour o tree).2) := by
  simp only [prepare, bind, StateT.bind]
  have same : loadManifest (Tree.disk here) o.asking.config = loadManifest (Tree.disk here) o.config := rfl
  rw [same]
  cases loadManifest (Tree.disk here) o.config tree with
  | mk loaded rest => cases loaded <;> rfl

theorem cached_of_prepare {o : Options} {found : Tree}
    (h : prepare (Tree.disk here) colour o tree = (.ok s, found)) : s.cached = o.cached := by
  simp only [prepare, bind, StateT.bind] at h
  cases loaded : loadManifest (Tree.disk here) o.config tree with
  | mk manifest rest =>
    rw [loaded] at h
    cases manifest with
    | error => cases h
    | ok manifest =>
      cases Except.ok.inj (Prod.mk.inj h).1
      rfl

theorem tag?_of_namedPair {t : Table} {left right : String} {pair : TypeId × TypeId}
    (h : namedPair t left right = .ok pair) : t.tag? left = some pair.1 ∧ t.tag? right = some pair.2 := by
  unfold namedPair at h
  split at h
  · next first second => cases h; exact ⟨first, second⟩
  · cases h
  · cases h

/-- The checker of a manifest has no oracle but the one it was given. -/
theorem plain_of_checkerWith {c : Checker} (h : checkerWith s Oracle.silent = .ok c) (oracle : Oracle) :
    (⟨c.maxDepth, c.variance, oracle⟩ : Checker).plain = c := by
  unfold checkerWith at h
  cases checked : s.manifest.checkedLimits with
  | error => rw [checked] at h; cases h
  | ok limits => rw [checked] at h; cases h; rfl

theorem relateTypes_eq {t : Table} {c : Checker} {rel : Relation} {left right : String} {a b : TypeId}
    (truthful : c.oracle.Truthful t.graph c.variance) (first : t.graph.WellFormed a) (second : t.graph.WellFormed b)
    (ends : relateTypes colour t c.plain rel left right a b ≠ .fail (.check left (sign rel) right .overflow)) :
    relateTypes colour t c rel left right a b = relateTypes colour t c.plain rel left right a b := by
  cases plain : (c.plain.decide t.graph rel (some a) (some b)).result with
  | ok r => rw [relateTypes, relateTypes, plain, Checker.decide_eq_plain truthful first second plain]
  | error e =>
    cases e with
    | overflow => exact absurd (by rw [relateTypes, plain]) ends
    | missing side => exact absurd plain (Checker.decide_whole rel first second side)

variable [Codec]

theorem run_eq [Monad m] [LawfulMonad m] (disk : Disk m) {args rest : List String} {o : Options}
    (parsed : parseFlags args Options.unset = .ok (o, command :: rest)) :
    run disk colour session args = (do
      match ← prepare disk colour o with
      | .error e => return .ok (Printed.fail (.manifest e)).outcome
      | .ok s => return (← dispatch disk s session command rest).map Printed.outcome) := by
  simp only [run, parsed, prepare, bind_assoc]
  congr 1
  funext loaded
  cases loaded with
  | error e => simp
  | ok manifest => simp

theorem loadTable_eq (here : String) (s : Setup) (tree : Tree) :
    loadTable (Tree.disk here) s tree = ((loadTable (Tree.disk here) s tree).1, tree) := by
  unfold loadTable
  split
  · rfl
  · rfl

theorem loadTable_sound {t : Table} (h : (loadTable (Tree.disk here) s tree).1 = .ok t) : t.Sound := by
  unfold loadTable at h
  split at h
  · cases h
  · have read : ((tree.read here s.tablePath).mapError TableFileError.file).bind (Table.ofFile s.tablePath) = .ok t :=
      Except.of_mapError_eq_ok h
    cases file : tree.read here s.tablePath with
    | error => rw [file] at read; cases read
    | ok data =>
      rw [file] at read
      exact Table.ofFile_sound read

theorem relate_eq (here command : String) (s : Setup) (rel : Relation) (left right : String) (tree : Tree) :
    (relate (Tree.disk here) s command rel [left, right] tree).1 =
      match (loadTable (Tree.disk here) s tree).1 with
      | .error e => .fail e
      | .ok t =>
        match namedPair t left right with
        | .error e => .fail e
        | .ok (a, b) =>
          match (checkerFor (Tree.disk here) s t tree).1 with
          | .error e => .fail e
          | .ok c => relateTypes s.colour t c rel left right a b := by
  simp only [relate, bind, StateT.bind]
  rw [loadTable_eq]
  cases (loadTable (Tree.disk here) s tree).1 with
  | error => rfl
  | ok t =>
    simp only
    cases namedPair t left right with
    | error => rfl
    | ok pair =>
      simp only [bind, StateT.bind]
      cases checkerFor (Tree.disk here) s t tree with
      | mk checker rest => cases checker <;> rfl

theorem checkerFor_plain {t : Table} (plain : s.cached = false) :
    (checkerFor (Tree.disk here) s t tree).1 = checkerWith s Oracle.silent := by
  unfold checkerFor
  cases checkerWith s Oracle.silent with
  | error => rfl
  | ok c => simp only [plain]; rfl

theorem checkerFor_asking {t : Table} {cache : RelationCache}
    (opens : (RelationCache.openAt (Tree.disk here) s.cachePath tree).1 = .ok cache) :
    (checkerFor (Tree.disk here) s.asking t tree).1 = (checkerWith s Oracle.silent).bind fun c =>
      (rememberedOracle cache t c.variance).map fun oracle => { c with oracle } := by
  have limits : checkerWith s.asking Oracle.silent = checkerWith s Oracle.silent := rfl
  unfold checkerFor
  rw [limits]
  cases checkerWith s Oracle.silent with
  | error => rfl
  | ok c =>
    have asked : s.asking.cached = true := rfl
    have path : s.asking.cachePath = s.cachePath := rfl
    simp only [asked, path, Bool.not_true, Bool.false_eq_true, if_false, bind, StateT.bind]
    cases opened : RelationCache.openAt (Tree.disk here) s.cachePath tree with
    | mk found rest =>
      rw [opened] at opens
      simp only at opens
      rw [opens]
      rfl

/-- What the cache gives for a table, if only an oracle that never answers, tells the truth. -/
theorem rememberedOracle_truthful {t : Table} (compilable : t.Compilable) (apart : Precomputation.Apart calls t)
    (v : Variance) :
    ∃ oracle, rememberedOracle (.filled calls) t v = .ok oracle ∧ oracle.Truthful t.graph v := by
  obtain ⟨digest, known⟩ := compilable.digest
  unfold rememberedOracle
  cases found : (RelationCache.filled calls).remembered none t v with
  | ok known => exact ⟨_, rfl, RelationCache.oracle_truthful compilable apart found⟩
  | error e =>
    rw [RelationCache.remembered_eq known] at found
    simp only at found
    split at found
    · cases found
      exact ⟨_, rfl, Oracle.silent_truthful _ _⟩
    · cases found

/-- A relation that is decided without the cache is told alike with it. -/
theorem relate_asking {rel : Relation} (plain : s.cached = false)
    (opens : (RelationCache.openAt (Tree.disk here) s.cachePath tree).1 = .ok (.filled calls))
    (apart : ∀ t, (loadTable (Tree.disk here) s tree).1 = .ok t → Precomputation.Apart calls t)
    (ends : ∀ left right, (relate (Tree.disk here) s command rel names tree).1 ≠
      .fail (.check left (sign rel) right .overflow)) :
    (relate (Tree.disk here) s.asking command rel names tree).1 =
      (relate (Tree.disk here) s command rel names tree).1 := by
  match names with
  | [] | [_] | _ :: _ :: _ :: _ => rfl
  | [left, right] =>
    have load : loadTable (Tree.disk here) s.asking = loadTable (Tree.disk here) s := rfl
    have ends := ends left right
    rw [relate_eq] at ends
    rw [relate_eq, relate_eq, load]
    cases loaded : (loadTable (Tree.disk here) s tree).1 with
    | error => rfl
    | ok t =>
      have compilable := (loadTable_sound loaded).compilable
      have apart := apart t loaded
      simp only [loaded] at ends ⊢
      cases named : namedPair t left right with
      | error => rfl
      | ok pair =>
        simp only [named, checkerFor_plain plain, checkerFor_asking opens] at ends ⊢
        cases limits : checkerWith s Oracle.silent with
        | error => rfl
        | ok c =>
          obtain ⟨oracle, remembered, truthful⟩ := rememberedOracle_truthful compilable apart c.variance
          obtain ⟨first, second⟩ := tag?_of_namedPair named
          have silent : (⟨c.maxDepth, c.variance, oracle⟩ : Checker).plain = c := plain_of_checkerWith limits oracle
          simp only [limits] at ends
          rw [← silent] at ends
          simp only [Except.bind, remembered, Except.map]
          have told := relateTypes_eq truthful (compilable.wellFormed_of_tag? first)
            (compilable.wellFormed_of_tag? second) ends
          rwa [silent] at told

/-- The commands that ask about a relation. -/
theorem dispatch_relate (h : command = "check" ∨ command = "eq") :
    ∃ rel, ∀ s : Setup, (dispatch (Tree.disk here) s session command names tree).1 =
      .ok (relate (Tree.disk here) s command rel names tree).1 := by
  rcases h with rfl | rfl
  · exact ⟨.subtype, fun s => rfl⟩
  · exact ⟨.equal, fun s => rfl⟩

theorem dispatch_asking (asks : command = "check" ∨ command = "eq") (plain : s.cached = false)
    (opens : (RelationCache.openAt (Tree.disk here) s.cachePath tree).1 = .ok (.filled calls))
    (apart : ∀ t, (loadTable (Tree.disk here) s tree).1 = .ok t → Precomputation.Apart calls t)
    (ends : ∀ left sign right, (dispatch (Tree.disk here) s session command names tree).1 ≠
      .ok (.fail (.check left sign right .overflow))) :
    (dispatch (Tree.disk here) s.asking session command names tree).1 =
      (dispatch (Tree.disk here) s session command names tree).1 := by
  obtain ⟨rel, relates⟩ := dispatch_relate asks
  rw [relates, relates, relate_asking plain opens apart]
  intro left right same
  exact ends left (sign rel) right (by rw [relates, same])

theorem run_asking {args : List String} {o : Options}
    (parsed : parseFlags args Options.unset = .ok (o, command :: names)) (asks : command = "check" ∨ command = "eq")
    (each : ∀ s found, prepare (Tree.disk here) colour o tree = (.ok s, found) →
      (RelationCache.openAt (Tree.disk here) s.cachePath found).1 = .ok (.filled calls) ∧
      (∀ t, (loadTable (Tree.disk here) s found).1 = .ok t → Precomputation.Apart calls t) ∧
      ∀ left sign right, (dispatch (Tree.disk here) s session command names found).1 ≠
        .ok (.fail (.check left sign right .overflow))) :
    (run (Tree.disk here) colour session ("-cached" :: args) tree).1 =
      (run (Tree.disk here) colour session args tree).1 := by
  have first : parseFlags ("-cached" :: args) Options.unset = parseFlags args Options.unset.asking := rfl
  have settled (same : parseFlags args Options.unset.asking = parseFlags args Options.unset) :
      run (Tree.disk here) colour session ("-cached" :: args) = run (Tree.disk here) colour session args := by
    unfold run
    rw [first, same]
  rcases parseFlags_asking args Options.unset with same | asked
  · rw [settled same]
  · by_cases cached : o.cached
    · have same : o.asking = o := by
        cases o
        cases cached
        rfl
      rw [settled (by rw [asked, parsed]; exact congrArg (fun o => Except.ok (o, command :: names)) same)]
    · have plain : o.cached = false := by simpa using cached
      rw [parsed] at asked
      rw [run_eq _ (first.trans asked), run_eq _ parsed]
      simp only [bind, StateT.bind, prepare_asking]
      cases prepared : prepare (Tree.disk here) colour o tree with
      | mk setup found =>
        cases setup with
        | error => rfl
        | ok s =>
          obtain ⟨opens, apart, ends⟩ := each s found prepared
          have told := dispatch_asking asks ((cached_of_prepare prepared).trans plain) opens apart ends
          exact congrArg (Except.map Printed.outcome) told

end Command

open Command RelationCache Precomputation

/-- What any calls leave in a cache, those that fail among them. It counts the rows of the last call for a table's
digest and a variance. An oracle made from it tells the truth about the table under that variance, and answers all that
the last call decided. A command that asks it prints the same line and ends with the same code as one that does not,
unless the latter gives up. No other compiled table may have the bytes of a table, or bytes with their SHA-256. -/
theorem cached_answers_faithful [Codec] (calls : List Precomputation) :
    (∀ t : Table, t.Compilable → ∃ digest, t.digest = .ok digest) ∧
    (∀ (t : Table) (v : Variance) (digest : String), t.digest = .ok digest →
      ((∀ p ∈ calls, ¬ p.Writes digest v) → (filled calls).count none t v = .ok 0) ∧
      ∀ before p later, calls = before ++ p :: later → p.Writes digest v → (∀ q ∈ later, ¬ q.Writes digest v) →
        ∃ n, (filled before).precompute p.blocked p.table p.checker = .ok (filled (before ++ [p]), n) ∧
          (filled calls).count none t v = .ok n) ∧
    (∀ (t : Table) (v : Variance) (known : RememberedAnswers), t.Compilable → Apart calls t →
      (filled calls).remembered none t v = .ok known → ∀ rel a b answer, known.oracle rel a b = some answer →
        (answer = true ↔ t.graph.Related v rel a b)) ∧
    (∀ before p later digest, calls = before ++ p :: later → p.Writes digest p.variance → Apart calls p.table →
      (∀ q ∈ later, ¬ q.Writes digest p.variance) →
      ∀ rel left right a b answer, left ∈ p.table.names → right ∈ p.table.names → p.table.tag? left = some a →
        p.table.tag? right = some b → (p.checker.decide p.table.graph rel (some a) (some b)).result = .ok answer →
        ∃ known, (filled calls).remembered none p.table p.variance = .ok known ∧ known.oracle rel a b = some answer) ∧
    ∀ (tree : Tree) (here session : String) (colour : Bool) (args : List String) (o : Options) (command : String)
      (names : List String), parseFlags args Options.unset = .ok (o, command :: names) →
      command = "check" ∨ command = "eq" →
      (∀ s found, prepare (Tree.disk here) colour o tree = (.ok s, found) →
        (openAt (Tree.disk here) s.cachePath found).1 = .ok (filled calls) ∧
        (∀ t, (loadTable (Tree.disk here) s found).1 = .ok t → Apart calls t) ∧
        ∀ left sign right, (dispatch (Tree.disk here) s session command names found).1 ≠
          .ok (.fail (.check left sign right .overflow))) →
      (run (Tree.disk here) colour session ("-cached" :: args) tree).1 =
        (run (Tree.disk here) colour session args tree).1 := by
  refine ⟨fun t compilable => compilable.digest, fun t v digest known => ⟨?_, ?_⟩, ?_, ?_, ?_⟩
  · exact count_filled_of_none known
  · rintro before p later rfl writes others
    exact count_filled known before writes others
  · intro t v known compilable apart found rel a b answer told
    exact remembered_truthful compilable apart found told
  · rintro before p later digest rfl writes apart others rel left right a b answer defined defined' first second decided
    exact remembered_of_decided before writes others apart defined defined' first second decided
  · intro tree here session colour args o command names parsed asks each
    exact run_asking parsed asks each

namespace Table

/-- Lists that refer to themselves at once, and lists that do so after two steps. -/
def rings : Table where
  props := ⟨#["head", "tail"]⟩
  graph := .extended [.object [⟨0, some 9, false⟩, ⟨1, some 7, true⟩], .object [⟨0, some 9, false⟩, ⟨1, some 6, true⟩],
    .object [⟨0, some 0, false⟩, ⟨1, some 8, true⟩], .prim .int]
  tags := [("Long", 6), ("Short", 8)]

theorem rings_sound : rings.Sound := by
  have typed : rings.Typed := by
    refine typed_of_holds (fun x inside => TypeStore.holds_extended ?_ inside) (by decide)
    simp only [List.forall_mem_cons]
    refine ⟨?_, ?_, ?_, ?_, by simp⟩
    · exact TypeStore.holds_object (by decide) (by decide)
    · exact TypeStore.holds_object (by decide) (by decide)
    · exact TypeStore.holds_object (by decide) (by decide)
    · exact TypeStore.holds_prim _ .int
  have distinct : rings.props.Distinct := by
    have names : NameTable.ofList ["head", "tail"] = rings.props := NameTable.ofList_of_nodup (by decide)
    exact names ▸ NameTable.ofList_distinct ["head", "tail"]
  exact ⟨⟨Graph.extended_rooted _, distinct, by decide, by decide⟩, typed⟩

def ringsForm : CompiledTable :=
  ⟨1, ["head", "tail"], [⟨"Long", 0⟩, ⟨"Short", 3⟩],
    [⟨8, 0, [], -1, -1, [⟨0, 1, false⟩, ⟨1, 2, true⟩], -1⟩, ⟨1, 0, [], -1, -1, [], -1⟩,
      ⟨8, 0, [], -1, -1, [⟨0, 1, false⟩, ⟨1, 0, true⟩], -1⟩, ⟨8, 0, [], -1, -1, [⟨0, 1, false⟩, ⟨1, 3, true⟩], -1⟩]⟩

theorem rings_compile : rings.compile = .ok ringsForm := by decide

def readRings : Table where
  props := ⟨#["head", "tail"]⟩
  graph := .extended [.object [⟨0, some 0, false⟩, ⟨1, some 8, true⟩], .prim .int,
    .object [⟨0, some 0, false⟩, ⟨1, some 6, true⟩], .object [⟨0, some 0, false⟩, ⟨1, some 9, true⟩]]
  tags := [("Long", 6), ("Short", 9)]

theorem ringsForm_reads : Codec.Reads ringsForm :=
  rings_sound.compilable.reads rings_compile (.of_short (by decide) (by decide) (by decide))

theorem decode_ringsForm : Table.decode ringsForm.bytes = .ok readRings := by
  have linked : ringsForm.link = .ok readRings := by decide +kernel
  have read : Codec.read? ringsForm.bytes = some ringsForm := ringsForm_reads
  rw [Table.decode, read]
  simp only [linked]
  rfl

end Table

def ringsCall (depth : Int) (variance : Variance) (blocked : Option Interruption) : Precomputation :=
  ⟨Table.rings, Table.rings_sound.toOrdered, Table.rings_sound.formed, depth, variance, blocked⟩

/-- The second call is for the same table, under the other variance and a larger bound. The last one fails. -/
def ringsCalls : List Precomputation :=
  [ringsCall 1 .contravariant none, ringsCall 50 .covariant none, ringsCall 1 .covariant (some .canceled)]

def ringsTree : Tree :=
  ⟨[(["rings.sjt"], .file Table.ringsForm.bytes), (["relations.db"], .file (filled ringsCalls).bytes)]⟩

def ringsOptions : Options := ⟨false, "", "/rings.sjt", "/relations.db", false⟩

def ringsSetup : Setup := Setup.ofOptions Manifest.default ringsOptions false

theorem rings_apart {t : Table} (form : t.compile = .ok Table.ringsForm) : Apart ringsCalls t := by
  have same {p : Precomputation} (member : p ∈ ringsCalls) {w w' : CompiledTable} (compiled : p.table.compile = .ok w)
      (compiled' : t.compile = .ok w') : w = w' := by
    have table : p.table = Table.rings := by
      simp only [ringsCalls, List.mem_cons, List.not_mem_nil, or_false] at member
      rcases member with rfl | rfl | rfl <;> rfl
    rw [table, Table.rings_compile] at compiled
    exact Except.ok.inj (compiled.symm.trans (form.symm.trans compiled'))
  exact ⟨fun p member w w' compiled compiled' _ => same member compiled compiled',
    fun p member w w' compiled compiled' _ => congrArg Codec.write (same member compiled compiled')⟩

theorem openAt_rings : (openAt (Tree.disk "/") "/relations.db" ringsTree).1 = .ok (filled ringsCalls) := by
  have short : ∀ p ∈ ringsCalls, ∀ name ∈ p.table.names, (Bytes.ofString name).length < 256 ^ 8 := by
    simp only [ringsCalls, Bytes.ofString_eq]
    decide
  have file : ringsTree.read "/" "/relations.db" = .ok (filled ringsCalls).bytes := rfl
  rw [openAt_eq rfl (filled_fits short) file rfl]

theorem loadTable_rings : (loadTable (Tree.disk "/") ringsSetup ringsTree).1 = .ok Table.readRings := by
  have ending : (Path.extension "/rings.sjt").toLower = ".sjt" := by decide +kernel
  have read : Table.ofFile "/rings.sjt" Table.ringsForm.bytes = .ok Table.readRings := by
    rw [Table.ofFile, ending]
    simp only [Table.decode_ringsForm]
    rfl
  have file : ringsTree.read "/" "/rings.sjt" = .ok Table.ringsForm.bytes := rfl
  change (((ringsTree.read "/" "/rings.sjt").mapError TableFileError.file).bind
    (Table.ofFile "/rings.sjt")).mapError _ = _
  rw [file]
  exact congrArg (Except.mapError CommandError.table) read

theorem dispatch_rings : (dispatch (Tree.disk "/") ringsSetup "" "eq" ["Long", "Short"] ringsTree).1 =
    .ok ⟨["Long = Short: true"], .done⟩ := by
  have relates : (dispatch (Tree.disk "/") ringsSetup "" "eq" ["Long", "Short"] ringsTree).1 =
      .ok (relate (Tree.disk "/") ringsSetup "eq" .equal ["Long", "Short"] ringsTree).1 := rfl
  have named : namedPair Table.readRings "Long" "Short" = .ok (6, 9) := rfl
  rw [relates, relate_eq, loadTable_rings]
  simp only [named]
  rw [checkerFor_plain rfl]
  rfl

/-- The two kinds of lists are equal, as the cache remembers from a table with other nodes. -/
theorem cached_answers_rings :
    (filled ringsCalls).count none Table.readRings .covariant = .ok 8 ∧
    (∃ known, (filled ringsCalls).remembered none Table.rings .covariant = .ok known ∧
      known.oracle .equal 6 8 = some true) ∧
    (run (Tree.disk "/") false ""
      ["-cached", "-table", "/rings.sjt", "-cache", "/relations.db", "eq", "Long", "Short"] ringsTree).1 =
        .ok ⟨0, "Long = Short: true\n", ""⟩ := by
  obtain ⟨digests, counts, _, answers, commands⟩ := cached_answers_faithful ringsCalls
  obtain ⟨digest, known⟩ := digests Table.rings Table.rings_sound.compilable
  have form : Table.readRings.compile = .ok Table.ringsForm := by decide
  have known' : Table.readRings.digest = .ok digest := by
    rw [← known, Table.digest, Table.digest, Table.encode, Table.encode, Table.rings_compile, form]
  have writes : (ringsCall 50 .covariant none).Writes digest .covariant := ⟨rfl, known, rfl⟩
  have fails : ∀ q ∈ [ringsCall 1 .covariant (some .canceled)], ¬ q.Writes digest .covariant := by
    intro q member writes
    cases List.mem_singleton.1 member
    cases writes.free
  refine ⟨?_, ?_, ?_⟩
  · obtain ⟨n, stored, counted⟩ := (counts _ .covariant digest known').2 [_] _ _ rfl writes fails
    rw [precompute_eq writes] at stored
    have eight : (rowsOf (ringsCall 50 .covariant none) digest).length = 8 := rfl
    rw [counted, ← (Prod.mk.inj (Except.ok.inj stored)).2, eight]
  · exact answers [_] _ _ digest rfl writes (rings_apart Table.rings_compile) fails .equal "Long" "Short" 6 8 true
      (by decide) (by decide) rfl rfl rfl
  · have parsed : parseFlags ["-table", "/rings.sjt", "-cache", "/relations.db", "eq", "Long", "Short"] Options.unset =
        .ok (ringsOptions, ["eq", "Long", "Short"]) := rfl
    have prepared : prepare (Tree.disk "/") false ringsOptions ringsTree = (.ok ringsSetup, ringsTree) := rfl
    rw [commands ringsTree "/" "" false _ _ _ _ parsed (.inr rfl), run_eq _ parsed]
    · simp only [bind, StateT.bind, prepared]
      exact congrArg (Except.map Printed.outcome) dispatch_rings
    · intro s found h
      obtain ⟨rfl, rfl⟩ : ringsSetup = s ∧ ringsTree = found := by
        rw [prepared] at h
        exact ⟨Except.ok.inj (Prod.mk.inj h).1, (Prod.mk.inj h).2⟩
      refine ⟨openAt_rings, fun t loaded => ?_, fun left sign right gaveUp => ?_⟩
      · rw [loadTable_rings] at loaded
        exact rings_apart (Except.ok.inj loaded ▸ form)
      · rw [dispatch_rings] at gaveUp
        cases gaveUp

end Gradual
