import DeadCode.Proofs.Module.Basic
import Mathlib.Data.List.DropRight
import Mathlib.Data.Option.Basic

/-! # The contents of string literals

The value of a string literal is its text without the quotes at both ends, of any kind and however
many there are. So it is what stands between the delimiters exactly if that neither begins nor ends
with a quote. Specifiers of modules, keys of members and exported names are all read in this way. -/

namespace DeadCode.Node

/-! ## Quotes around a text -/

/-- A text neither begins nor ends with a quote. -/
def Bare (text : List Char) : Prop :=
  (∀ c ∈ text.head?, ¬ isQuote c) ∧ ∀ c ∈ text.getLast?, ¬ isQuote c

/-- What is left of a text when all quotes are taken off its ends. -/
def StripsTo (text core : List Char) : Prop :=
  Bare core ∧ ∃ before after, (∀ c ∈ before, isQuote c) ∧ (∀ c ∈ after, isQuote c) ∧
    text = before ++ (core ++ after)

variable {text core : List Char}

theorem dropWhile_quotes {before rest : List Char} (hbefore : ∀ c ∈ before, isQuote c)
    (hrest : ∀ c ∈ rest.head?, ¬ isQuote c) : (before ++ rest).dropWhile isQuote = rest := by
  rw [List.dropWhile_append_of_pos hbefore]
  cases rest with
  | nil => rfl
  | cons c rest => exact List.dropWhile_cons_of_neg (hrest c rfl)

theorem unquote_eq_of_stripsTo (h : StripsTo text core) : unquote text = core := by
  obtain ⟨⟨hhead, hlast⟩, before, after, hbefore, hafter, rfl⟩ := h
  unfold unquote
  cases core with
  | nil =>
    -- Nothing is left, so all characters are quotes and the first step takes them off.
    have hall : ∀ c ∈ before ++ after, isQuote c := by
      simpa [or_imp, forall_and] using And.intro hbefore hafter
    rw [List.nil_append, List.dropWhile_eq_nil_iff.2 hall]
    rfl
  | cons c core =>
    rw [dropWhile_quotes hbefore (by simpa using hhead), List.reverse_append,
      dropWhile_quotes (by simpa using hafter) (by rwa [List.head?_reverse]), List.reverse_reverse]

theorem not_isQuote_of_head?_dropWhile (text : List Char) {c : Char}
    (h : c ∈ (text.dropWhile isQuote).head?) : ¬ isQuote c := by
  have := List.head?_dropWhile_not isQuote text
  rw [h] at this
  simpa using this

/-- Unquoting strips the quotation marks. -/
theorem stripsTo_unquote (text : List Char) : StripsTo text (unquote text) := by
  set rest := text.dropWhile isQuote with hrest
  have htext : text = text.takeWhile isQuote ++ rest := List.takeWhile_append_dropWhile.symm
  have hsplit : rest = unquote text ++ (rest.reverse.takeWhile isQuote).reverse := by
    rw [unquote, ← List.reverse_append, List.takeWhile_append_dropWhile, List.reverse_reverse]
  refine ⟨⟨fun c hc => ?_, fun c hc => ?_⟩, text.takeWhile isQuote,
    (rest.reverse.takeWhile isQuote).reverse, fun c hc => List.mem_takeWhile_imp hc,
    fun c hc => List.mem_takeWhile_imp (List.mem_reverse.1 hc), hsplit ▸ htext⟩
  · -- The first character is also the first after the quotes at the beginning.
    refine not_isQuote_of_head?_dropWhile text ?_
    rw [← hrest, hsplit, List.head?_append, Option.mem_def.1 hc]
    rfl
  · rw [unquote, List.getLast?_reverse] at hc
    exact not_isQuote_of_head?_dropWhile _ hc

/-- **Without the quotes at its ends** a text is what is left of it when they are taken off. -/
theorem unquote_eq_iff : unquote text = core ↔ StripsTo text core :=
  ⟨fun h => h ▸ stripsTo_unquote text, unquote_eq_of_stripsTo⟩

theorem stripsTo_self_iff : StripsTo text text ↔ Bare text :=
  ⟨And.left, fun h => ⟨h, [], [], by simp⟩⟩

theorem StripsTo.enclosed {q : Char} (hq : isQuote q) (h : StripsTo text core) :
    StripsTo (q :: (text ++ [q])) core := by
  obtain ⟨hbare, before, after, hbefore, hafter, rfl⟩ := h
  refine ⟨hbare, q :: before, after ++ [q], ?_, ?_, by simp⟩
  · simpa using And.intro hq hbefore
  · simpa [or_imp, forall_and, hq] using hafter

theorem unquote_enclosed {q : Char} (hq : isQuote q) (text : List Char) :
    unquote (q :: (text ++ [q])) = unquote text :=
  unquote_eq_of_stripsTo ((stripsTo_unquote text).enclosed hq)

/-! ## Literals and where they are read -/

variable {source body : String} {n literal : Node}

/-- **A node is a literal with these contents**: a string, or a template string without
substitutions, whose text is the contents between two quotes of one kind. -/
def Delimits (source : String) (literal : Node) (body : String) : Prop :=
  (literal.kind = .stringLiteral ∨ literal.kind = .templateString ∧ ¬ literal.isInterpolated) ∧
    ∃ q, isQuote q ∧
      literal.text? source = some (String.singleton q ++ body ++ String.singleton q)

/-- A node is a call with a literal as its first argument. -/
def Passes (n callee literal : Node) : Prop :=
  n.kind = .callExpression ∧ n.child? .function = some callee ∧
    ∃ arguments, n.child? .arguments = some arguments ∧ arguments.namedChildren.head? = some literal

/-- A node is the name `require`. -/
def IsRequire (source : String) (callee : Node) : Prop :=
  callee.kind = .identifier ∧ callee.text? source = some "require"

/-- A node imports the module that a literal names: it is an `import` statement, an export of names
of another module, or a call of `require` or of `import`. -/
inductive NamesModule (source : String) (n literal : Node) : Prop
  | statement (hkind : n.kind = .importStatement ∨ n.kind = .exportStatement)
      (h : n.child? .source = some literal)
  | require {callee : Node} (h : n.Passes callee literal) (hcallee : callee.IsRequire source)
  | dynamic {callee : Node} (h : n.Passes callee literal) (hcallee : callee.kind = .importToken)

/-- **A literal stands for a text** wherever it is read: as a value, as a key, as the last name of a
chain of members, as the module of a call of `require`, and as the module of an import. -/
structure ReadAs (source : String) (literal : Node) (text : String) : Prop where
  value : literal.stringValue? source = some text
  key : literal.kind = .stringLiteral → literal.staticKey? source = some text
  member : ∀ (n object : Node) (chain : List String), n.kind = .subscriptExpression →
    n.child? .object = some object → object.memberChain? source = some chain →
    n.child? .index = some literal → literal.kind = .stringLiteral →
      n.memberChain? source = some (chain ++ [text])
  required : ∀ n callee : Node, n.Passes callee literal → callee.IsRequire source →
    n.requireSource? source = some text
  imported : ∀ (context : Import.Context) (around : List Node) (n : Node),
    context.source = source → n.NamesModule source literal →
      n.importSource? source = some text ∧
        ∀ i ∈ Import.atNode context around n, i.source = text

/-- The value of a literal. -/
theorem stringValue?_of_delimits (h : literal.Delimits source body) :
    literal.stringValue? source = some (String.ofList (unquote body.toList)) := by
  obtain ⟨hliteral, q, hq, htext⟩ := h
  have hkind : ((literal.kind = .stringLiteral || literal.kind = .templateString)
      && !literal.isInterpolated) = true := by
    rcases hliteral with hk | ⟨hk, hplain⟩
    · simp [hk, isInterpolated]
    · simp [hk, hplain]
  rw [stringValue?, if_pos hkind, htext, Option.map_some]
  simp [unquote_enclosed hq]

theorem memberChain?_subscript {object index : Node} {chain : List String} {key : String}
    (hkind : n.kind = .subscriptExpression) (hobject : n.child? .object = some object)
    (hchain : object.memberChain? source = some chain) (hindex : n.child? .index = some index)
    (hname : index.kind ≠ .identifier) (hkey : index.staticKey? source = some key) :
    n.memberChain? source = some (chain ++ [key]) := by
  rw [memberChain?]
  simp only [hkind]
  unfold withChild
  split
  · next found hfound =>
    obtain rfl : found = object := Option.some.inj (hfound.symm.trans hobject)
    simp [hchain, hindex, hname, hkey]
  · next hnone => rw [hobject] at hnone; cases hnone

theorem requireSource?_eq {callee : Node} (h : n.Passes callee literal)
    (hcallee : callee.IsRequire source) :
    n.requireSource? source = literal.stringValue? source := by
  obtain ⟨hkind, hfunction, arguments, harguments, hfirst⟩ := h
  simp [requireSource?, hkind, hfunction, hcallee.1, hcallee.2, harguments, hfirst]

theorem NamesModule.importSource?_eq (h : n.NamesModule source literal) :
    n.importSource? source = literal.stringValue? source := by
  cases h with
  | statement hkind h => rcases hkind with hk | hk <;> simp [importSource?, hk, h]
  | require h hcallee =>
    have hdynamic : n.dynamicSource? source = none := by
      simp [dynamicSource?, h.2.1, hcallee.1, Option.failure_eq_none]
    simp only [importSource?, h.1, requireSource?_eq h hcallee, hdynamic, Option.or_none]
  | dynamic h hcallee =>
    have hrequire : n.requireSource? source = none := by
      simp [requireSource?, h.1, h.2.1, hcallee, Option.failure_eq_none]
    obtain ⟨hkind, hfunction, arguments, harguments, hfirst⟩ := h
    simp [importSource?, hkind, hrequire, dynamicSource?, hfunction, hcallee, harguments, hfirst]

/-- **A literal is read everywhere as its value.** -/
theorem readAs_iff {text : String} :
    literal.ReadAs source text ↔ literal.stringValue? source = some text := by
  refine ⟨ReadAs.value, fun h => ?_⟩
  have hkey (hk : literal.kind = .stringLiteral) : literal.staticKey? source = some text := by
    rw [staticKey?, hk]
    exact h
  refine ⟨h, hkey, fun n object chain hkind hobject hchain hindex hk => ?_,
    fun n callee hcall hcallee => (requireSource?_eq hcall hcallee).trans h,
    fun context around n hcontext hmodule => ?_⟩
  · exact memberChain?_subscript hkind hobject hchain hindex (by simp [hk]) (hkey hk)
  · have hsource : n.importSource? source = some text := hmodule.importSource?_eq.trans h
    refine ⟨hsource, fun i hi => ?_⟩
    obtain ⟨specifier, _, _, hspecifier, hnames⟩ := Import.exists_mem_ofNames hi
    rw [hcontext, hsource] at hspecifier
    exact (Import.source_of_mem_ofNames hnames).trans (Option.some.inj hspecifier).symm

theorem readAs_iff_stripsTo (h : literal.Delimits source body) {text : String} :
    literal.ReadAs source text ↔ StripsTo body.toList text.toList := by
  rw [readAs_iff, stringValue?_of_delimits h, Option.some.injEq, ← unquote_eq_iff,
    ← String.toList_inj, String.toList_ofList]

theorem eq_of_readAs {text : String} (h : literal.Delimits source body) (hbare : Bare body.toList)
    (hread : literal.ReadAs source text) : text = body := by
  have hbody : literal.ReadAs source body :=
    (readAs_iff_stripsTo h).2 (stripsTo_self_iff.2 hbare)
  exact Option.some.inj (hread.value.symm.trans hbody.value)

/-- **What a literal stands for.** Wherever it is read it stands for its contents without the quotes
at their ends. These are the contents exactly if they neither begin nor end with a quote, and
literals with such contents are told apart by them. -/
theorem readAs_exact (h : literal.Delimits source body) :
    (∃ text, literal.ReadAs source text) ∧
      (∀ text, literal.ReadAs source text ↔ StripsTo body.toList text.toList) ∧
      (literal.ReadAs source body ↔ Bare body.toList) ∧
      ∀ (source' : String) (literal' : Node) (body' : String), literal'.Delimits source' body' →
        Bare body.toList → Bare body'.toList → ∀ text text', literal.ReadAs source text →
          literal'.ReadAs source' text' → (text = text' ↔ body = body') := by
  refine ⟨⟨_, readAs_iff.2 (stringValue?_of_delimits h)⟩, fun text => readAs_iff_stripsTo h,
    (readAs_iff_stripsTo h).trans stripsTo_self_iff, ?_⟩
  intro source' literal' body' h' hbare hbare' text text' hread hread'
  rw [eq_of_readAs h hbare hread, eq_of_readAs h' hbare' hread']

/-- Two imports with quotes inside their specifiers. -/
def quotesInside : String :=
  "import 'a\"b'; import \"a'b\";"

/-- A literal of a text. -/
def literalAt (mark : String) (start stop : Nat) : Node :=
  .part .index (.quoted mark start stop)

theorem readAs_exact_quotesInside :
    (literalAt "'" 7 12).Delimits quotesInside "a\"b" ∧ (literalAt "\"" 21 26).Delimits quotesInside "a'b" ∧
      (literalAt "'" 7 12).ReadAs quotesInside "a\"b" ∧ (literalAt "\"" 21 26).ReadAs quotesInside "a'b" ∧
      ∀ text text', (literalAt "'" 7 12).ReadAs quotesInside text →
        (literalAt "\"" 21 26).ReadAs quotesInside text' → text ≠ text' := by
  have h : (literalAt "'" 7 12).Delimits quotesInside "a\"b" :=
    ⟨.inl rfl, '\'', by decide, by decide +kernel⟩
  have h' : (literalAt "\"" 21 26).Delimits quotesInside "a'b" :=
    ⟨.inl rfl, '"', by decide, by decide +kernel⟩
  have hbare : Bare "a\"b".toList := by simp [Bare, isQuote]
  have hbare' : Bare "a'b".toList := by simp [Bare, isQuote]
  obtain ⟨-, -, hread, hapart⟩ := readAs_exact h
  obtain ⟨-, -, hread', -⟩ := readAs_exact h'
  refine ⟨h, h', hread.2 hbare, hread'.2 hbare', fun text text' ht ht' heq => ?_⟩
  exact absurd ((hapart _ _ _ h' hbare hbare' text text' ht ht').1 heq) (by decide)

/-- A file that exports something under each of two quotes. -/
def quoteKeys : String :=
  "exports['\"'] = 1;\nexports[\"'\"] = 2;"

/-- A statement of `quoteKeys`. -/
def quoteKeyAt (mark : String) (start : Nat) : Node :=
  let place : Node :=
    .part .left (.of .subscriptExpression start (start + 12)
      [.part .object (.of .identifier start (start + 7)), .token "[" (start + 7) (start + 8),
       literalAt mark (start + 8) (start + 11), .token "]" (start + 11) (start + 12)])
  .of .expressionStatement start (start + 17)
    [.of .assignmentExpression start (start + 16)
       [place, .token "=" (start + 13) (start + 14),
        .part .right (.of .numberLiteral (start + 15) (start + 16))],
     .token ";" (start + 16) (start + 17)]

/-- Keys that differ are taken for one: both statements export the empty name. -/
theorem quoteKeys_identified :
    (literalAt "'" 8 11).Delimits quoteKeys "\"" ∧ (literalAt "\"" 26 29).Delimits quoteKeys "'" ∧
      (literalAt "'" 8 11).stringValue? quoteKeys = some "" ∧
      (literalAt "\"" 26 29).stringValue? quoteKeys = some "" ∧
      (quoteKeyAt "'" 0).expressionExports quoteKeys = [("", none)] ∧
      (quoteKeyAt "\"" 18).expressionExports quoteKeys = [("", none)] := by
  refine ⟨⟨.inl rfl, '\'', by decide, by decide +kernel⟩,
    ⟨.inl rfl, '"', by decide, by decide +kernel⟩, ?_⟩
  decide +kernel

end DeadCode.Node
