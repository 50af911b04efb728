/-
# Templates of generated files

There are two templates: a factory class and the configuration provider of a module. A value is
put in as it is, without any escaping.
-/

import Scaffold.Failure

namespace Scaffold

/-- The values that a template is filled with. -/
structure TemplateValues where
  /-- The namespace of a factory. Without this value the name of a built-in function of the same
  name takes its place. -/
  space : Option Text
  /-- The class that a factory builds. -/
  className : Text
  factory : Text
  moduleName : Text
  /-- The name under which the templates of a module are found. -/
  templateSpace : Text
deriving DecidableEq, Repr

/-- A template. -/
inductive Template where
  | factory
  | configProvider
deriving DecidableEq, Repr

namespace Template

/-- The template of a name. -/
def ofName (name : Text) : Except Failure Template :=
  if name = "factory.php".toList then .ok .factory
  else if name = "config_provider.php".toList then .ok .configProvider
  else .error (.unknownTemplate name)

/-- A text of lines, each with a newline at its end. -/
def lines (written : List String) : Text := written.flatMap fun line => line.toList ++ ['\n']

/-- What stands for the namespace where no value is given for it. -/
def builtInSpace : Text := "minijinja::functions::builtins::namespace".toList

/-- The declaration of a namespace and an empty line; nothing for the empty namespace. -/
def declaration (space : Text) : Text :=
  if space.isEmpty then [] else "namespace ".toList ++ space ++ [';', '\n', '\n']

/-- The file of a factory class. -/
def factorySource (values : TemplateValues) : Text :=
  lines ["<?php", "", "declare(strict_types=1);", ""]
    ++ declaration (values.space.getD builtInSpace)
    ++ lines ["use Psr\\Container\\ContainerInterface;", ""]
    ++ ("class ".toList ++ values.factory ++ ['\n'])
    ++ lines ["\x7b"]
    ++ ("    public function __invoke(ContainerInterface $container) : ".toList
      ++ values.className ++ ['\n'])
    ++ lines ["    \x7b"]
    ++ ("        return new ".toList ++ values.className ++ ['(', ')', ';', '\n'])
    ++ lines ["    \x7d", "\x7d"]

/-- The file of a configuration provider. -/
def configProviderSource (values : TemplateValues) : Text :=
  lines ["<?php", "", "declare(strict_types=1);", ""]
    ++ ("namespace ".toList ++ values.moduleName ++ [';', '\n'])
    ++ lines ["", "/**"]
    ++ (" * The configuration provider for the ".toList ++ values.moduleName
      ++ " module\n".toList)
    ++ lines
      [" *",
        " * @see https://docs.laminas.dev/laminas-component-installer/",
        " */",
        "class ConfigProvider",
        "\x7b",
        "    /**",
        "     * Returns the configuration array",
        "     *",
        "     * To add a bit of a structure, each section is defined in a separate",
        "     * method which returns an array with its configuration.",
        "     */",
        "    public function __invoke() : array",
        "    \x7b",
        "        return [",
        "            'dependencies' => $this->getDependencies(),",
        "            'templates'    => $this->getTemplates(),",
        "        ];",
        "    \x7d",
        "",
        "    /**",
        "     * Returns the container dependencies",
        "     */",
        "    public function getDependencies() : array",
        "    \x7b",
        "        return [",
        "            'invokables' => [",
        "            ],",
        "            'factories'  => [",
        "            ],",
        "        ];",
        "    \x7d",
        "",
        "    /**",
        "     * Returns the templates configuration",
        "     */",
        "    public function getTemplates() : array",
        "    \x7b",
        "        return [",
        "            'paths' => ["]
    ++ ("                '".toList ++ values.templateSpace
      ++ "' => [__DIR__ . '/../templates/'],\n".toList)
    ++ lines ["            ],", "        ];", "    \x7d", "\x7d"]

/-- The template filled with values. -/
def render (values : TemplateValues) : Template → Text
  | .factory => factorySource values
  | .configProvider => configProviderSource values

end Template
end Scaffold
