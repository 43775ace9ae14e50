import TreeLint.Tree.Builder

/-!
# Sample trees

Fixtures for tests (specification, §15).
-/

namespace TreeLint.Sample

open BuildEvent

/-- `fun f(a, b)` -/
def functionFile : Tree :=
  Tree.build .file
    [start .function, token .keyword "fun", space " ", token .identifier "f",
      start .parameterList, token .leftParen "(",
      start .parameter, token .identifier "a", finish,
        token .comma ",", space " ",
      start .parameter, token .identifier "b", finish, token .rightParen ")",
      finish, finish]

/-- A class with a property and a function. -/
def classFile : Tree :=
  Tree.build .file
    [start .classDecl, token .keyword "class", space " ",
      token .identifier "A", space " ",
      start .classBody, token .leftBrace "\x7b", space "\n    ",
      start .property, token .keyword "val", space " ",
        token .identifier "a", space " ",
      token .equals "=", space " ", token .integerLiteral "1", finish,
        space "\n    ",
      start .function, token .keyword "fun", space " ", token .identifier "b",
      start .parameterList, token .leftParen "(", token .rightParen ")",
        finish, space " ",
      token .equals "=", space " ", token .integerLiteral "2",
        finish, space "\n",
      token .rightBrace "\x7d", finish, finish, space "\n"]

end TreeLint.Sample
