import TensorNet.Proofs.Document.Costs

/-!
# Documents of instructions

The document of an instruction or of a temporary denotes it as long as the positions and axes in it
have 64 bits; a reader refuses larger ones. Main statement: labels, costs, strategies and
instructions are read back unchanged from what is written of them, and two that differ are written
differently.
-/

namespace TensorNet

open Json (Denotes)

/-! ### The numbers of a value -/

/-- All of the numbers fit in 64 bits. -/
def InWords (ns : List Nat) : Prop := ∀ n ∈ ns, n ≤ Json.maxWord

instance (ns : List Nat) : Decidable (InWords ns) :=
  inferInstanceAs (Decidable (∀ n ∈ ns, n ≤ Json.maxWord))

theorem inWords_append {ms ns : List Nat} : InWords (ms ++ ns) ↔ InWords ms ∧ InWords ns :=
  List.forall_mem_append

/-- Both numbers of each pair. -/
def pairNumbers (ps : List (Nat × Nat)) : List Nat := ps.flatMap fun p => [p.1, p.2]

/-- The position that an operand has, if it has one. -/
def Operand.numbers : Operand → List Nat
  | input i => [i]
  | temporary s => [s]
  | destination => []

/-- The positions and axes in what a step computes. -/
def Action.numbers : Action Operand → List Nat
  | copy src => src.operand.numbers
  | trace src pairs => src.operand.numbers ++ pairNumbers pairs
  | contract a b axesA axesB => a.operand.numbers ++ (b.operand.numbers ++ (axesA ++ axesB))

/-- The positions and axes in an instruction. -/
def Instruction.numbers (s : Instruction) : List Nat :=
  s.action.numbers ++ (s.dst.numbers ++ s.perm)

/-- The positions and axes in the description of a temporary. -/
def TemporarySpec.numbers (t : TemporarySpec) : List Nat := t.slot :: pairNumbers t.extents

/-! ### Lists of numbers -/

namespace Json

theorem denotes_sizes {ns : List Nat} (h : InWords ns) :
    Denotes (list? size?) (ofList ofNat ns) ns :=
  denotes_list fun n hn => denotes_size (h n hn)

theorem denotes_sizePair {p : Nat × Nat} (h₁ : p.1 ≤ maxWord) (h₂ : p.2 ≤ maxWord) :
    Denotes sizePair? (ofSizePair p) p := by
  have hx := denotes_size h₁
  have hy := denotes_size h₂
  refine ⟨.array fun j hj => ?_, ?_⟩
  · rcases List.mem_cons.1 hj with rfl | hj
    · exact hx.written
    · exact List.mem_singleton.1 hj ▸ hy.written
  · simp only [ofSizePair, sizePair?, hx.read_eq, hy.read_eq, Option.bind_eq_bind,
      Option.bind_some, Option.pure_def]

theorem denotes_sizePairs {ps : List (Nat × Nat)} (h : InWords (pairNumbers ps)) :
    Denotes (list? sizePair?) (ofList ofSizePair ps) ps := by
  have hmem : ∀ p ∈ ps, ∀ n ∈ [p.1, p.2], n ≤ maxWord := fun p hp n hn =>
    h n (List.mem_flatMap.2 ⟨p, hp, hn⟩)
  exact denotes_list fun p hp =>
    denotes_sizePair (hmem p hp _ (by simp)) (hmem p hp _ (by simp))

end Json

/-! ### Operands and scalars -/

theorem Operand.denotes_toJson {p : Operand} (h : InWords p.numbers) :
    Denotes Operand.ofJson? p.toJson p := by
  cases p with
  | input i =>
    have hi := Json.denotes_size (h i List.mem_cons_self)
    refine ⟨Json.written_ofCaseOf _ hi.written, ?_⟩
    simp only [toJson, ofJson?, Json.case?_ofCaseOf, hi.read_eq, Option.map_some]
  | temporary s =>
    have hs := Json.denotes_size (h s List.mem_cons_self)
    refine ⟨Json.written_ofCaseOf _ hs.written, ?_⟩
    simp only [toJson, ofJson?, Json.case?_ofCaseOf, hs.read_eq, Option.map_some]
  | destination => exact ⟨Json.written_ofCase _, Json.plainCase?_ofCase rfl⟩

theorem Scale.denotes_toJson (s : Scale) : Denotes Scale.ofJson? s.toJson s :=
  ⟨Json.written_ofCase _, Json.plainCase?_ofCase (by cases s <;> rfl)⟩

/-! ### Instructions -/

namespace Instruction

variable {src a b dst : Operand} {perm axesA axesB : List Nat} {pairs : List (Nat × Nat)}

theorem denotes_copy (hs : InWords src.numbers) (hd : InWords dst.numbers) (hp : InWords perm)
    (conj : Bool) (alpha beta : Scale) :
    Denotes ofJson? (toJson ⟨.copy ⟨src, conj⟩, dst, perm, alpha, beta⟩)
      ⟨.copy ⟨src, conj⟩, dst, perm, alpha, beta⟩ := by
  have hsrc := Operand.denotes_toJson hs
  have hconj := Json.denotes_bool conj
  have hdst := Operand.denotes_toJson hd
  have hperm := Json.denotes_sizes hp
  have halpha := alpha.denotes_toJson
  have hbeta := beta.denotes_toJson
  have hrecord : (Json.ofRecord [("src", src.toJson), ("conj", .bool conj), ("dst", dst.toJson),
      ("perm", .ofList .ofNat perm), ("alpha", alpha.toJson), ("beta", beta.toJson)]).record?
        ["src", "conj", "dst", "perm", "alpha", "beta"] =
      some [some src.toJson, some (.bool conj), some dst.toJson, some (.ofList .ofNat perm),
        some alpha.toJson, some beta.toJson] :=
    Json.record?_ofRecord (by simp)
  refine ⟨Json.written_ofCaseOf _ (Json.written_ofRecord ?_), ?_⟩
  · simp [hsrc.written, hconj.written, hdst.written, hperm.written, halpha.written,
      hbeta.written]
  · simp only [toJson, ofJson?, Json.case?_ofCaseOf, copyOfJson?, List.cons_append,
      List.nil_append, hrecord, operand?, flag?, axes?, scale?, hsrc.field, hconj.field,
      hdst.field, hperm.field, halpha.field, hbeta.field]
    rfl

theorem denotes_trace (hs : InWords src.numbers) (hd : InWords dst.numbers) (hp : InWords perm)
    (hq : InWords (pairNumbers pairs)) (conj : Bool) (alpha beta : Scale) :
    Denotes ofJson? (toJson ⟨.trace ⟨src, conj⟩ pairs, dst, perm, alpha, beta⟩)
      ⟨.trace ⟨src, conj⟩ pairs, dst, perm, alpha, beta⟩ := by
  have hsrc := Operand.denotes_toJson hs
  have hconj := Json.denotes_bool conj
  have hdst := Operand.denotes_toJson hd
  have hperm := Json.denotes_sizes hp
  have hpairs := Json.denotes_sizePairs hq
  have halpha := alpha.denotes_toJson
  have hbeta := beta.denotes_toJson
  have hrecord : (Json.ofRecord [("src", src.toJson), ("conj", .bool conj), ("dst", dst.toJson),
      ("perm", .ofList .ofNat perm), ("pairs", .ofList .ofSizePair pairs),
      ("alpha", alpha.toJson), ("beta", beta.toJson)]).record?
        ["src", "conj", "dst", "perm", "pairs", "alpha", "beta"] =
      some [some src.toJson, some (.bool conj), some dst.toJson, some (.ofList .ofNat perm),
        some (.ofList .ofSizePair pairs), some alpha.toJson, some beta.toJson] :=
    Json.record?_ofRecord (by simp)
  refine ⟨Json.written_ofCaseOf _ (Json.written_ofRecord ?_), ?_⟩
  · simp [hsrc.written, hconj.written, hdst.written, hperm.written, hpairs.written,
      halpha.written, hbeta.written]
  · simp only [toJson, ofJson?, Json.case?_ofCaseOf, traceOfJson?, List.cons_append,
      List.nil_append, hrecord, operand?, flag?, axes?, scale?, hsrc.field, hconj.field,
      hdst.field, hperm.field, hpairs.field, halpha.field, hbeta.field]
    rfl

theorem denotes_contract (ha : InWords a.numbers) (hb : InWords b.numbers)
    (hd : InWords dst.numbers) (hp : InWords perm) (hA : InWords axesA) (hB : InWords axesB)
    (conjA conjB : Bool) (alpha beta : Scale) :
    Denotes ofJson?
      (toJson ⟨.contract ⟨a, conjA⟩ ⟨b, conjB⟩ axesA axesB, dst, perm, alpha, beta⟩)
      ⟨.contract ⟨a, conjA⟩ ⟨b, conjB⟩ axesA axesB, dst, perm, alpha, beta⟩ := by
  have hfirst := Operand.denotes_toJson ha
  have hsecond := Operand.denotes_toJson hb
  have hconjA := Json.denotes_bool conjA
  have hconjB := Json.denotes_bool conjB
  have hdst := Operand.denotes_toJson hd
  have haxesA := Json.denotes_sizes hA
  have haxesB := Json.denotes_sizes hB
  have hperm := Json.denotes_sizes hp
  have halpha := alpha.denotes_toJson
  have hbeta := beta.denotes_toJson
  have hrecord : (Json.ofRecord [("a", a.toJson), ("conj_a", .bool conjA), ("b", b.toJson),
      ("conj_b", .bool conjB), ("dst", dst.toJson), ("cind_a", .ofList .ofNat axesA),
      ("cind_b", .ofList .ofNat axesB), ("perm", .ofList .ofNat perm), ("alpha", alpha.toJson),
      ("beta", beta.toJson)]).record?
        ["a", "conj_a", "b", "conj_b", "dst", "cind_a", "cind_b", "perm", "alpha", "beta"] =
      some [some a.toJson, some (.bool conjA), some b.toJson, some (.bool conjB),
        some dst.toJson, some (.ofList .ofNat axesA), some (.ofList .ofNat axesB),
        some (.ofList .ofNat perm), some alpha.toJson, some beta.toJson] :=
    Json.record?_ofRecord (by simp)
  refine ⟨Json.written_ofCaseOf _ (Json.written_ofRecord ?_), ?_⟩
  · simp [hfirst.written, hsecond.written, hconjA.written, hconjB.written, hdst.written,
      haxesA.written, haxesB.written, hperm.written, halpha.written, hbeta.written]
  · simp only [toJson, ofJson?, Json.case?_ofCaseOf, contractOfJson?, List.cons_append,
      List.nil_append, hrecord, operand?, flag?, axes?, scale?, hfirst.field, hsecond.field,
      hconjA.field, hconjB.field, hdst.field, haxesA.field, haxesB.field, hperm.field,
      halpha.field, hbeta.field]
    rfl

theorem denotes_toJson {s : Instruction} (h : InWords s.numbers) : Denotes ofJson? s.toJson s := by
  obtain ⟨action, dst, perm, alpha, beta⟩ := s
  obtain ⟨haction, h⟩ := inWords_append.1 h
  obtain ⟨hd, hp⟩ := inWords_append.1 h
  cases action with
  | copy src => exact denotes_copy haction hd hp _ _ _
  | trace src pairs =>
    obtain ⟨hs, hq⟩ := inWords_append.1 haction
    exact denotes_trace hs hd hp hq _ _ _
  | contract a b axesA axesB =>
    obtain ⟨ha, h⟩ := inWords_append.1 haction
    obtain ⟨hb, h⟩ := inWords_append.1 h
    obtain ⟨hA, hB⟩ := inWords_append.1 h
    exact denotes_contract ha hb hd hp hA hB _ _ _ _

end Instruction

/-! ### Temporaries -/

theorem TemporarySpec.denotes_toJson {t : TemporarySpec} (h : InWords t.numbers) :
    Denotes TemporarySpec.ofJson? t.toJson t := by
  obtain ⟨hslot, hpairs⟩ := List.forall_mem_cons.1 h
  have hs := Json.denotes_size hslot
  have hl : Denotes (Json.list? Label.ofJson?) (.ofList Label.toJson t.labels) t.labels :=
    Json.denotes_list fun l _ => l.denotes_toJson
  have he := Json.denotes_sizePairs hpairs
  have hrecord : t.toJson.record? ["slot", "labels", "extents"] =
      some [some (.ofNat t.slot), some (.ofList Label.toJson t.labels),
        some (.ofList .ofSizePair t.extents)] :=
    Json.record?_ofRecord (by simp)
  refine ⟨Json.written_ofRecord (by simp [hs.written, hl.written, he.written]), ?_⟩
  simp only [ofJson?, hrecord, hs.field, hl.field, he.field]
  rfl

/-! ### Values and their texts -/

/-- **Texts keep values**: of the values that satisfy a condition, each is read back from its text,
and two have the same text only if they are equal. -/
structure Json.Keeps {α : Type} (write : α → Json) (read : Json → Option α) (P : α → Prop) :
    Prop where
  readsBack : ∀ x, P x → Json.read? read (write x).text = some x
  distinct : ∀ x y, P x → P y → (write x).text = (write y).text → x = y

/-- A text that denotes two values denotes one. -/
theorem Json.Keeps.of_denotes {α : Type} {write : α → Json} {read : Json → Option α} {P : α → Prop}
    (h : ∀ x, P x → Denotes read (write x) x) : Json.Keeps write read P where
  readsBack x hx := (h x hx).read?_text
  distinct x y hx hy he := by
    have hread := (h x hx).read?_text
    rw [he, (h y hy).read?_text] at hread
    exact (Option.some.inj hread).symm

/-- **Labels, costs, strategies and instructions are kept by their texts.** Labels, costs,
strategies and scalars are so without exception, and what holds positions and axes is as long as
these have 64 bits. A list of instructions is kept as a whole. -/
theorem Json.keeps_values :
    Json.Keeps Label.toJson Label.ofJson? (fun _ => True) ∧
      Json.Keeps Cost.toJson Cost.ofJson? (fun _ => True) ∧
      Json.Keeps Strategy.toJson Strategy.ofJson? (fun _ => True) ∧
      Json.Keeps Scale.toJson Scale.ofJson? (fun _ => True) ∧
      Json.Keeps Operand.toJson Operand.ofJson? (fun p => InWords p.numbers) ∧
      Json.Keeps Instruction.toJson Instruction.ofJson? (fun s => InWords s.numbers) ∧
      Json.Keeps TemporarySpec.toJson TemporarySpec.ofJson? (fun t => InWords t.numbers) ∧
      Json.Keeps (Json.ofList Instruction.toJson) (Json.list? Instruction.ofJson?)
        (fun ss => ∀ s ∈ ss, InWords s.numbers) :=
  ⟨.of_denotes fun l _ => l.denotes_toJson, .of_denotes fun c _ => c.denotes_toJson,
    .of_denotes fun s _ => s.denotes_toJson, .of_denotes fun s _ => s.denotes_toJson,
    .of_denotes fun _ h => Operand.denotes_toJson h,
    .of_denotes fun _ h => Instruction.denotes_toJson h,
    .of_denotes fun _ h => TemporarySpec.denotes_toJson h,
    .of_denotes fun _ h => Json.denotes_list fun s hs => Instruction.denotes_toJson (h s hs)⟩

/-- A contraction over the last axis that there can be is read back, and the integer `1` is not
written as the name `1` is. -/
theorem Json.keeps_values_last_axis :
    ∃ s : Instruction,
      s = ⟨.contract ⟨.input Json.maxWord, true⟩ ⟨.temporary 0, false⟩ [Json.maxWord] [0],
        .destination, [1, 0], .callerAlpha, .callerBeta⟩ ∧
      InWords s.numbers ∧ Json.read? Instruction.ofJson? s.toJson.text = some s ∧
      (Label.int 1).toJson.text ≠ (Label.name "1").toJson.text := by
  obtain ⟨hlabel, -, -, -, -, hinstruction, -⟩ := Json.keeps_values
  have hwords : InWords (Instruction.numbers
      ⟨.contract ⟨.input Json.maxWord, true⟩ ⟨.temporary 0, false⟩ [Json.maxWord] [0],
        .destination, [1, 0], .callerAlpha, .callerBeta⟩) := by decide
  refine ⟨_, rfl, hwords, hinstruction.readsBack _ hwords, fun he => ?_⟩
  exact nomatch hlabel.distinct _ _ trivial trivial he

example : (Label.int 1).toJson.text = "\x7b\"Int\":1\x7d" := by cbv
example : (Label.name "1").toJson.text = "\x7b\"Name\":\"1\"\x7d" := by cbv

end TensorNet
