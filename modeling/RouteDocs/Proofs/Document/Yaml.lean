import RouteDocs.Document.Yaml
import RouteDocs.Proofs.Yaml.View

/-!
# Documents read back from YAML

## Main statements

* `Document.exists_printYaml?_readYaml?`: a document is written, and it is read back from its YAML
  text.
-/

namespace RouteDocs

open Yaml

/-- A document without doubles that nests at most 127 deep is written as YAML, and it is read back
from the text. -/
theorem Document.exists_printYaml?_readYaml? (d : Document) (hfree : d.toJson.IsFloatFree)
    (hdepth : d.toJson.depth ≤ 127) (hordered : d.IsOrdered) :
    ∃ text, d.printYaml? = some text ∧ Document.readYaml? text = some d := by
  obtain ⟨text, hprint, htokens⟩ := exists_print?_object (List.cons_ne_nil _ _) hfree
  refine ⟨text, hprint, ?_⟩
  have hlink := link?_nodeOf d.toJson []
  have htree : Tree.read? text.toList = some (.ofRoot (nodeOf d.toJson)) := by
    rw [Tree.read?]
    show (tokens? text.toList).bind _ = _
    rw [htokens]
    show (document? (tokensOf false d.toJson)).bind _ = _
    rw [document?_tokensOf]
    show (Node.link? [] (nodeOf d.toJson)).bind _ = _
    rw [hlink]
    rfl
  have hdecode := Document.decode_eq (Tree.shows (.ofRoot (nodeOf d.toJson))) (n := Tree.depthLimit)
    d (Nat.le_trans hdepth (by decide)) hfree hordered
  rw [readYaml?, Tree.readRoot?, htree]
  exact congrArg (StateT.run' · (Tree.aliasLimit _)) hdecode

theorem Document.exists_printYaml?_readYaml?_users :
    ∃ text, Document.users.printYaml? = some text ∧
      Document.readYaml? text = some Document.users :=
  Document.exists_printYaml?_readYaml? Document.users (by decide) (by decide) (by decide)

end RouteDocs
