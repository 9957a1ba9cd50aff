import Dam.Code.Assembly

/-!
# The class file as assembly text

The code becomes the `main` method of a class that also has a constructor. The
text is a list of lines; labels stand at the margin and instructions are indented.
-/

namespace Dam

namespace Item

/-- The line of an item. -/
def line : Item → String
  | label l => (label l).text
  | op i => "\t" ++ i.text

end Item

namespace Assembly

/-- The lines in front of the `main` method. -/
def headerLines (className : String) (sourceFile : Option String) : List String :=
  (sourceFile.map (".source " ++ ·)).toList ++
  [".class public " ++ className,
    ".super java/lang/Object",
    "",
    ".method public <init>()V",
    "\taload_0",
    "\tinvokenonvirtual java/lang/Object/<init>()V",
    "\treturn",
    ".end method",
    ""]

/-- The lines of the `main` method. -/
def mainLines (a : Assembly) : List String :=
  [".method public static main([Ljava/lang/String;)V",
    "\t.limit stack " ++ toString a.maxStack,
    "\t.limit locals " ++ toString a.maxLocals]
  ++ a.items.map Item.line
  ++ ["\treturn", ".end method"]

/-- Lines as a text. Each line is ended by a line feed. -/
def joinLines (lines : List String) : String :=
  lines.foldl (fun acc l => (acc ++ l).push '\n') ""

/-- The class with the code as its `main` method. -/
def classText (a : Assembly) (className : String) (sourceFile : Option String) : String :=
  joinLines (headerLines className sourceFile ++ a.mainLines)

end Assembly

end Dam
