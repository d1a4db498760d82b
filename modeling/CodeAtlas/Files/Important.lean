import CodeAtlas.Path

/-!
# Important files

Files that matter for a repository as a whole: its documentation, its dependencies, its configuration
and its workflows.
-/

namespace CodeAtlas.Files

/-- The paths of important files, as seen from the root of a repository. -/
def importantFiles : List String :=
  [".gitignore", ".gitattributes", "README", "README.md", "README.txt", "README.rst",
    "CONTRIBUTING", "CONTRIBUTING.md", "CONTRIBUTING.txt", "CONTRIBUTING.rst", "LICENSE",
    "LICENSE.md", "LICENSE.txt", "CHANGELOG", "CHANGELOG.md", "CHANGELOG.txt", "CHANGELOG.rst",
    "SECURITY", "SECURITY.md", "SECURITY.txt", "CODEOWNERS", "requirements.txt", "Pipfile",
    "Pipfile.lock", "pyproject.toml", "setup.py", "setup.cfg", "package.json",
    "package-lock.json", "yarn.lock", "npm-shrinkwrap.json", "Gemfile", "Gemfile.lock",
    "composer.json", "composer.lock", "pom.xml", "build.gradle", "build.gradle.kts", "build.sbt",
    "go.mod", "go.sum", "Cargo.toml", "Cargo.lock", "mix.exs", "rebar.config", "project.clj",
    "Podfile", "Cartfile", "dub.json", "dub.sdl", ".env", ".env.example", ".editorconfig",
    "tsconfig.json", "jsconfig.json", ".babelrc", "babel.config.js", ".eslintrc",
    ".eslintignore", ".prettierrc", ".stylelintrc", "tslint.json", ".pylintrc", ".flake8",
    ".rubocop.yml", ".scalafmt.conf", ".dockerignore", ".gitpod.yml", "sonar-project.properties",
    "renovate.json", "dependabot.yml", ".pre-commit-config.yaml", "mypy.ini", "tox.ini",
    ".yamllint", "pyrightconfig.json", "webpack.config.js", "rollup.config.js",
    "parcel.config.js", "gulpfile.js", "Gruntfile.js", "build.xml", "build.boot", "project.json",
    "build.cake", "MANIFEST.in", "pytest.ini", "phpunit.xml", "karma.conf.js", "jest.config.js",
    "cypress.json", ".nycrc", ".nycrc.json", ".travis.yml", ".gitlab-ci.yml", "Jenkinsfile",
    "azure-pipelines.yml", "bitbucket-pipelines.yml", "appveyor.yml", "circle.yml",
    ".circleci/config.yml", ".github/dependabot.yml", "codecov.yml", ".coveragerc", "Dockerfile",
    "docker-compose.yml", "docker-compose.override.yml", "serverless.yml", "firebase.json",
    "now.json", "netlify.toml", "vercel.json", "app.yaml", "terraform.tf", "main.tf",
    "cloudformation.yaml", "cloudformation.json", "ansible.cfg", "kubernetes.yaml", "k8s.yaml",
    "schema.sql", "liquibase.properties", "flyway.conf", "next.config.js", "nuxt.config.js",
    "vue.config.js", "angular.json", "gatsby-config.js", "gridsome.config.js", "swagger.yaml",
    "swagger.json", "openapi.yaml", "openapi.json", ".nvmrc", ".ruby-version", ".python-version",
    "Vagrantfile", ".codeclimate.yml", "mkdocs.yml", "_config.yml", "book.toml",
    "readthedocs.yml", ".readthedocs.yaml", ".npmrc", ".yarnrc", ".isort.cfg",
    ".markdownlint.json", ".markdownlint.yaml", ".bandit", ".secrets.baseline", ".pypirc",
    ".gitkeep", ".npmignore"]

/-- The directory of workflows. -/
def workflowDirectory : String := ".github/workflows"

/-- Whether a path is that of an important file or of a workflow. -/
def isImportant (path : String) : Bool :=
  (Path.normalize (Path.directory path) == workflowDirectory && Text.endsWith (Path.baseName path) ".yml") ||
    importantFiles.contains (Path.normalize path)

end CodeAtlas.Files
